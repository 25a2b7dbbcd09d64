import PathQuery.Pattern.Engine
import PathQuery.Proofs.Evaluation.Hooks
import PathQuery.Proofs.Value.Laws

/-!
# The values of expressions

Whatever an expression stands for, its value is lifted: what is taken from a document or comes from
a host is freed of the document around it if it is a scalar. So comparisons keep their laws on all
values that filters compare.

* `Stateful.Yields`      what holds of the result of a computation, if it has one;
* `evaluate_yields`      the values of expressions are lifted, and where their documents are from;
* `comparisons_lawful`   and the laws of comparisons hold on such values.
-/

namespace PathQuery

/-! ## results -/

/-- whatever the computation results in, `P` holds of it -/
def Stateful.Yields {σ α : Type} (P : α → Prop) (m : Stateful σ α) : Prop :=
  ∀ s a t, m s = .ok a t → P a

namespace Stateful.Yields
variable {σ α β : Type} {P : β → Prop}

theorem pure {b : β} (h : P b) : Yields P (pure b : Stateful σ β) := by
  intro s a t hok
  cases hok
  exact h

theorem throw (e : PathError) : Yields P (throw e : Stateful σ β) := fun _ _ _ h => nomatch h

theorem bind {m : Stateful σ α} {f : α → Stateful σ β} (h : ∀ a, Yields P (f a)) :
    Yields P (m >>= f) := by
  intro s b t hok
  obtain ⟨a, u, -, hf⟩ := bind_eq_ok.mp hok
  exact h a u b t hf

theorem ofExcept {x : Except PathError β} (h : ∀ b, x = .ok b → P b) :
    Yields P (.ofExcept x : Stateful σ β) := by
  cases x with
  | ok b => exact pure (h b rfl)
  | error e => exact throw e

end Stateful.Yields

/-! ## lifted values -/

namespace Value

theorem isLifted_ofDocument (d : Document) : (ofDocument d).IsLifted := by
  cases d with
  | integer n =>
    rw [ofDocument]
    split <;> trivial
  | _ => trivial

theorem isLifted_normalize (v : Value) : v.normalize.IsLifted := by
  cases v with
  | node d => exact isLifted_ofDocument d
  | _ => trivial

theorem ofDocument_eq_node {d d' : Document} (h : ofDocument d = node d') : d = d' := by
  cases d with
  | integer n =>
    rw [ofDocument] at h
    split at h <;> cases h
  | list items =>
    cases h
    rfl
  | map entries =>
    cases h
    rfl
  | _ => cases h

theorem normalize_eq_node {v : Value} {d : Document} (h : v.normalize = node d) : v = node d := by
  cases v with
  | node d' => rw [ofDocument_eq_node h]
  | _ => cases h

/-- the value is lifted; a document in it stands in `item`, or a host has it from a call -/
def IsFrom (r : Registry) (item : Document) (v : Value) : Prop :=
  v.IsLifted ∧ ∀ d, v = node d → (∃ q, item.Stands q d) ∨ ∃ name args, r.call name args = node d

end Value

namespace Filter
open Stateful
variable {E : RegexEngine} (r : Registry) (item : Document)

theorem resolve_isFrom {d : Document} {q : List Place} (hd : item.Stands q d) {names : List String}
    {v : Value} (h : resolve d names = .ok v) : v.IsFrom r item := by
  induction names generalizing d q with
  | nil =>
    cases h
    refine ⟨Value.isLifted_ofDocument d, fun d' hd' => .inl ⟨q, ?_⟩⟩
    rwa [← Value.ofDocument_eq_node hd']
  | cons name names ih =>
    rw [resolve] at h
    cases hname : checkName name with
    | error e =>
      rw [hname] at h
      cases h
    | ok u =>
      cases hlookup : d.lookup name with
      | none =>
        rw [hname, hlookup] at h
        cases h
        refine ⟨trivial, fun d' hd' => ?_⟩
        cases hd'
      | some d' =>
        rw [hname, hlookup] at h
        exact ih (hd.append (.of_lookup hlookup)) h

theorem callNoted_yields (name : String) (args : List Value) :
    Yields (Value.IsFrom r item) (callNoted (E := E) r name args) := by
  have hresult : (r.call name args).normalize.IsFrom r item :=
    ⟨Value.isLifted_normalize _, fun d hd => .inr ⟨name, args, Value.normalize_eq_node hd⟩⟩
  unfold callNoted
  split_ifs
  · exact .bind fun _ => .pure hresult
  · exact .pure hresult

/-- operators result in truth values, everything else is lifted where it is taken -/
theorem evaluate_yields (f : Filter) :
    Yields (Value.IsFrom r item) (f.evaluate (r.hooks E) item) := by
  have bool (b : Bool) : (Value.bool b).IsFrom r item := ⟨trivial, nofun⟩
  cases f with
  | literal l =>
    rw [evaluate]
    refine .pure ?_
    cases l <;> exact ⟨trivial, nofun⟩
  | reference names =>
    rw [evaluate]
    exact .ofExcept fun v h => resolve_isFrom r item (.here item) h
  | negation operand =>
    rw [evaluate]
    exact .bind fun v => .pure (bool _)
  | binary op left right =>
    rw [evaluate]
    exact .bind fun b => .pure (bool b)
  | call name args =>
    rw [evaluate]
    exact .bind fun vs => callNoted_yields r item name vs

/-- **Comparisons are lawful.** The value of an expression, whatever a host has registered, is
lifted, and a document in it is part of `@` or from the host. On any three such values comparisons
keep the laws of orders, as long as all floats are numbers and no map has a key twice. -/
theorem comparisons_lawful :
    (∀ (E : RegexEngine) (r : Registry) (item : Document) (f : Filter) (s t : Session E)
        (v : Value), f.evaluate (r.hooks E) item s = .ok v t → v.IsLifted ∧
        ∀ d, v = .node d → (∃ q, item.Stands q d) ∨ ∃ name args, r.call name args = .node d) ∧
    ∀ a b c : Value, a.Regular → b.Regular → c.Regular → Value.Laws a b c :=
  ⟨fun _ r item f s t v h => evaluate_yields r item f s v t h, fun _ _ _ ha hb hc => ha.laws hb hc⟩

/-- a scalar that a host wraps in a document; and an integer, a float and a map -/
theorem comparisons_lawful_sample :
    let host := Registry.empty.registerFunction "one" ⟨some 0, fun _ => .node (.integer 1)⟩
    (∃ v t, (call "one" []).evaluate (host.hooks Pattern.engine) .null .fresh = .ok v t ∧
      v.IsLifted) ∧
    Value.Laws (.integer (2 ^ 53)) (.float (Float.ofInt (2 ^ 53 + 2)))
      (.node (.ofPairs [("a", .null)])) := by
  intro host
  obtain ⟨t, ht⟩ : ∃ t, (call "one" []).evaluate (host.hooks Pattern.engine) .null .fresh =
    .ok (.integer 1) t := ⟨_, rfl⟩
  have hnull : Document.null.KeysOnce := Document.keysOnce_leaf rfl
  have hkeys : (Document.ofPairs [("a", .null)]).KeysOnce :=
    Document.keysOnce_ofPairs fun e he => by rwa [List.mem_singleton.mp he]
  have hnumbers : (Document.ofPairs [("a", .null)]).AllNumbers := by
    intro q x h
    cases h with
    | entry hmem h =>
      cases List.mem_singleton.mp hmem
      cases h
  exact ⟨⟨_, t, ht, (comparisons_lawful.1 _ _ _ _ _ _ _ ht).1⟩, comparisons_lawful.2 _ _ _
    ⟨trivial, trivial, trivial⟩ ⟨trivial, Decimal.isNaN_ofInt _, trivial⟩
    ⟨trivial, hnumbers, hkeys⟩⟩

end Filter
end PathQuery
