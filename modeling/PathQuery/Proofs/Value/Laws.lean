import PathQuery.Proofs.Document.Same
import PathQuery.Proofs.Value.Numbers

/-!
# The laws of comparisons

Numbers are in order with numbers and texts with texts, and nothing else is in order. Equality is
another matter: all values but missing ones equal themselves, and none equals a value of another
kind.

* `Value.IsLifted`     scalars stand alone, only maps and lists stand in a document;
* `Value.Regular`      lifted, and all floats are numbers;
* `Value.InOrder`      two numbers, or two texts;
* `order_eq_none`      nothing else has an order;
* `InOrder.decided`    these have one, and it agrees with equality;
* `Value.Laws`         the laws, and `Regular.laws` that they hold.
-/

namespace PathQuery.Value

/-- a scalar does not stand in its document any more, only maps and lists do -/
def IsLifted : Value → Prop
  | node (.list _) => True
  | node (.map _) => True
  | node _ => False
  | _ => True

def AllNumbers : Value → Prop
  | float x => x.isNaN = false
  | node d => d.AllNumbers
  | _ => True

/-- no map in the value has a key twice -/
def KeysOnce : Value → Prop
  | node d => d.KeysOnce
  | _ => True

/-- a value as evaluating yields it, from documents in which all floats are numbers -/
structure Regular (v : Value) : Prop where
  lifted : v.IsLifted
  numbers : v.AllNumbers
  keys : v.KeysOnce

/-- two numbers, or two texts -/
def InOrder (v w : Value) : Prop :=
  v.typeName = w.typeName ∧ (v.typeName = "number" ∨ v.typeName = "string")

section
variable {u v w : Value}

/-! ## order -/

theorem Regular.isNumber (h : v.Regular) (htype : v.typeName = "number") : v.IsNumber := by
  cases v with
  | integer n => exact .integer n
  | float x => exact .float h.numbers
  | node d =>
    have hlifted := h.lifted
    cases d <;> first | exact hlifted.elim | simp [typeName, Document.typeName] at htype
  | _ => simp [typeName] at htype

theorem Regular.isText (h : v.Regular) (htype : v.typeName = "string") : ∃ s, v = text s := by
  cases v with
  | text s => exact ⟨s, rfl⟩
  | node d =>
    have hlifted := h.lifted
    cases d <;> first | exact hlifted.elim | simp [typeName, Document.typeName] at htype
  | _ => simp [typeName] at htype

theorem InOrder.cases (hv : v.Regular) (hw : w.Regular) (h : InOrder v w) :
    (v.IsNumber ∧ w.IsNumber) ∨ ∃ s t, v = text s ∧ w = text t := by
  obtain ⟨htype, hnumber | htext⟩ := h
  · exact .inl ⟨hv.isNumber hnumber, hw.isNumber (htype.symm.trans hnumber)⟩
  · obtain ⟨s, rfl⟩ := hv.isText htext
    obtain ⟨t, rfl⟩ := hw.isText (htype.symm.trans htext)
    exact .inr ⟨s, t, rfl, rfl⟩

/-- **Only numbers are in order with numbers, and texts with texts.** -/
theorem order_eq_none (h : ¬InOrder v w) : v.order? w = none := by
  unfold order?
  split
  · exact absurd ⟨rfl, .inr rfl⟩ h
  · unfold numberOrder?
    split
    case h_5 => rfl
    all_goals exact absurd ⟨rfl, .inl rfl⟩ h

theorem order_text (s t : String) : (text s).order? (text t) = some (compare s t) := by
  show some (if s < t then Ordering.lt else if s = t then .eq else .gt) = _
  rcases lt_trichotomy s t with h | h | h
  · rw [if_pos h, compare_lt_iff_lt.mpr h]
  · rw [if_neg h.not_lt, if_pos h, compare_eq_iff_eq.mpr h]
  · rw [if_neg h.not_gt, if_neg h.ne', compare_gt_iff_gt.mpr h]

theorem order_number (hv : v.IsNumber) : v.order? w = numberOrder? v w := by
  cases hv <;> rfl

theorem order_swap (hv : v.Regular) (hw : w.Regular) :
    w.order? v = (v.order? w).map Ordering.swap := by
  by_cases h : InOrder v w
  · obtain ⟨hv, hw⟩ | ⟨s, t, rfl, rfl⟩ := h.cases hv hw
    · rw [order_number hv, order_number hw, numberOrder_swap hv hw]
    · have hswap : compare t s = (compare s t).swap := Std.OrientedCmp.eq_swap
      rw [order_text, order_text, Option.map_some, hswap]
  · have h' : ¬InOrder w v := fun ⟨htype, hkind⟩ => h ⟨htype.symm, htype ▸ hkind⟩
    rw [order_eq_none h, order_eq_none h', Option.map_none]

theorem order_trans (hu : u.Regular) (hv : v.Regular) (hw : w.Regular)
    (huv : u.order? v = some .lt) (hvw : v.order? w = some .lt) : u.order? w = some .lt := by
  have inOrder {a b : Value} (h : a.order? b = some .lt) : InOrder a b := by
    by_contra hnone
    rw [order_eq_none hnone] at h
    cases h
  obtain ⟨hu', hv'⟩ | ⟨s, t, rfl, rfl⟩ := (inOrder huv).cases hu hv
  · obtain ⟨-, hw'⟩ | ⟨t, _, rfl, -⟩ := (inOrder hvw).cases hv hw
    · rw [order_number hu'] at huv ⊢
      rw [order_number hv'] at hvw
      exact numberOrder_trans hu' hv' hw' huv hvw
    · cases hv'
  · obtain ⟨hv', -⟩ | ⟨_, t', h, rfl⟩ := (inOrder hvw).cases hv hw
    · cases hv'
    · cases h
      rw [order_text, Option.some.injEq, compare_lt_iff_lt] at huv hvw ⊢
      exact huv.trans hvw

/-! ## equality -/

/-- numbers, and texts, have one order, and they are equal if it says so -/
theorem InOrder.decided (hv : v.Regular) (hw : w.Regular) (h : InOrder v w) :
    ∃ o, v.order? w = some o ∧ v.equal w = (o == .eq) := by
  obtain ⟨hv, hw⟩ | ⟨s, t, rfl, rfl⟩ := h.cases hv hw
  · obtain ⟨o, ho⟩ := numberOrder_total hv hw
    have hequal := equal_iff_order hv hw
    rw [ho, Option.some.injEq] at hequal
    exact ⟨o, (order_number hv).trans ho, Bool.eq_iff_iff.mpr (hequal.trans beq_iff_eq.symm)⟩
  · refine ⟨_, order_text s t, ?_⟩
    show (s == t) = _
    rw [Bool.eq_iff_iff, beq_iff_eq, beq_iff_eq, compare_eq_iff_eq]

/-- **Only values of one kind are equal.** -/
theorem typeName_of_equal (h : v.equal w = true) : v.typeName = w.typeName := by
  unfold equal at h
  split at h
  · cases h
  · cases h
  · rfl
  · rfl
  · rfl
  · exact Document.typeName_of_same h
  · unfold numberOrder? at h
    split at h
    case h_5 => cases h
    all_goals rfl

theorem equal_comm (hv : v.Regular) (hw : w.Regular) : v.equal w = w.equal v := by
  by_cases h : InOrder v w
  · obtain ⟨o, ho, heq⟩ := h.decided hv hw
    obtain ⟨o', ho', heq'⟩ := InOrder.decided hw hv ⟨h.1.symm, h.1 ▸ h.2⟩
    rw [order_swap hv hw, ho] at ho'
    cases ho'
    rw [heq, heq']
    cases o <;> rfl
  · cases v with
    | bool a =>
      cases w with
      | bool b => exact Bool.beq_comm
      | _ => rfl
    | node d =>
      cases w with
      | node e => exact Document.same_comm hv.keys hw.keys hv.numbers hw.numbers
      | _ => rfl
    | text s =>
      cases w with
      | text t => exact absurd ⟨rfl, .inr rfl⟩ h
      | _ => rfl
    | _ => cases w <;> first | rfl | exact absurd ⟨rfl, .inl rfl⟩ h

theorem equal_self (hv : v.Regular) (h : v ≠ missing) : v.equal v = true := by
  have number (hv : v.IsNumber) : v.equal v = true :=
    (equal_iff_order hv hv).mpr (numberOrder_self hv)
  cases v with
  | missing => exact absurd rfl h
  | null => rfl
  | bool b => exact beq_self_eq_true b
  | integer n => exact number (.integer n)
  | float x => exact number (.float hv.numbers)
  | text s => exact beq_self_eq_true s
  | node d => exact Document.same_self hv.keys hv.numbers

theorem less_iff : Comparison.less.holds v w = true ↔ v.order? w = some .lt := by
  show (v.order? w).any (· == .lt) = true ↔ _
  rcases v.order? w with _ | _ | _ | _ <;> decide

theorem not_less_self (hv : v.Regular) : ¬Comparison.less.holds v v = true := by
  rw [less_iff]
  intro h
  have hswap := order_swap hv hv
  rw [h] at hswap
  cases hswap

/-- the comparison that holds of what stands in this order -/
def comparisonOf : Ordering → Comparison
  | .lt => .less
  | .eq => .equal
  | .gt => .greater

theorem InOrder.exactly_one (hv : v.Regular) (hw : w.Regular) (h : InOrder v w) :
    ∃! p, p ∈ [Comparison.less, .equal, .greater] ∧ p.holds v w = true := by
  obtain ⟨o, ho, hequal⟩ := h.decided hv hw
  have holds_iff (p : Comparison) (hp : p ∈ [Comparison.less, .equal, .greater]) :
      p.holds v w = true ↔ p = comparisonOf o := by
    rw [List.mem_cons, List.mem_cons, List.mem_singleton] at hp
    obtain rfl | rfl | rfl := hp
    · show (v.order? w).any _ = true ↔ _
      rw [ho]
      cases o <;> decide
    · show v.equal w = true ↔ _
      rw [hequal]
      cases o <;> decide
    · show (v.order? w).any _ = true ↔ _
      rw [ho]
      cases o <;> decide
  have hmem : comparisonOf o ∈ [Comparison.less, .equal, .greater] := by cases o <;> decide
  exact ⟨comparisonOf o, ⟨hmem, (holds_iff _ hmem).mpr rfl⟩, fun p hp => (holds_iff p hp.1).mp hp.2⟩

end

/-! ## the laws -/

/-- the laws of comparisons, for any three values -/
structure Laws (a b c : Value) : Prop where
  notEqual : Comparison.notEqual.holds a b = !Comparison.equal.holds a b
  equal_comm : Comparison.equal.holds a b = Comparison.equal.holds b a
  not_equal_missing : a = missing ∨ b = missing → Comparison.equal.holds a b = false
  equal_self : a ≠ missing → Comparison.equal.holds a a = true
  greater : Comparison.less.holds a b = Comparison.greater.holds b a
  greaterEq : Comparison.lessEq.holds a b = Comparison.greaterEq.holds b a
  not_less_self : Comparison.less.holds a a = false
  less_trans : Comparison.less.holds a b = true → Comparison.less.holds b c = true →
    Comparison.less.holds a c = true
  /-- two numbers or two texts are equal, or one of them is less -/
  exactly_one : InOrder a b →
    ∃! p, p ∈ [Comparison.less, .equal, .greater] ∧ p.holds a b = true
  lessEq : InOrder a b →
    Comparison.lessEq.holds a b = (Comparison.less.holds a b || Comparison.equal.holds a b)
  /-- nothing else is in order -/
  unordered : ¬InOrder a b →
    ∀ p ∈ [Comparison.less, .lessEq, .greater, .greaterEq], p.holds a b = false
  /-- and values of different kinds are not equal -/
  not_equal_kinds : a.typeName ≠ b.typeName → Comparison.equal.holds a b = false

/-- **Comparisons keep the laws of orders.** -/
theorem Regular.laws {a b c : Value} (ha : a.Regular) (hb : b.Regular) (hc : c.Regular) :
    Laws a b c where
  notEqual := rfl
  equal_comm := Value.equal_comm ha hb
  not_equal_missing := by
    rintro (rfl | rfl)
    · rfl
    · cases a <;> rfl
  equal_self := Value.equal_self ha
  greater := by
    show (a.order? b).any _ = (b.order? a).any _
    rw [order_swap ha hb]
    rcases a.order? b with _ | _ | _ | _ <;> rfl
  greaterEq := by
    show (a.order? b).any _ = (b.order? a).any _
    rw [order_swap ha hb]
    rcases a.order? b with _ | _ | _ | _ <;> rfl
  not_less_self := Bool.eq_false_iff.mpr (Value.not_less_self ha)
  less_trans := by
    intro hab hbc
    rw [less_iff] at hab hbc ⊢
    exact order_trans ha hb hc hab hbc
  exactly_one := InOrder.exactly_one ha hb
  lessEq := by
    intro h
    obtain ⟨o, ho, heq⟩ := h.decided ha hb
    show (a.order? b).any _ = ((a.order? b).any _ || a.equal b)
    rw [ho, heq]
    cases o <;> rfl
  unordered := by
    intro h p hp
    have hnone : a.order? b = none := order_eq_none h
    rw [List.mem_cons, List.mem_cons, List.mem_cons, List.mem_singleton] at hp
    obtain rfl | rfl | rfl | rfl := hp <;> exact congrArg (Option.any _) hnone
  not_equal_kinds := fun h => Bool.eq_false_iff.mpr fun heq => h (typeName_of_equal heq)

end PathQuery.Value
