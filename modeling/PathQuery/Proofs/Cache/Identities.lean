import PathQuery.Cache.Holdings
import Mathlib.Data.List.Basic
import Mathlib.Tactic.SplitIfs

/-!
# No two documents have one number

A table gives every document a number of its own, as long as no other document is kept at the
address of one that is in the table.

* `Identities.Sound`      no number is given twice;
* `Identities.idOf_spec`  the number of a document, and what the table then holds;
* `Holdings.documents`    the documents that a host holds.
-/

namespace PathQuery

namespace Identities

/-- no number is given twice, and those still to be given are new -/
structure Sound (t : Identities) : Prop where
  below : ∀ e ∈ t.entries, e.id.number < t.nextId
  single : ∀ e ∈ t.entries, ∀ e' ∈ t.entries, e.id = e'.id → e.document = e'.document

theorem sound_empty : empty.Sound := by
  constructor
  · intro e he
    cases he
  · intro e he
    cases he

theorem mem_makeRoom {t : Identities} {alive : Nat → Bool} {e : Entry}
    (h : e ∈ (t.makeRoom alive).entries) : e ∈ t.entries := by
  rw [makeRoom] at h
  split_ifs at h
  · exact List.mem_of_mem_filter h
  · exact h

theorem nextId_makeRoom (t : Identities) (alive : Nat → Bool) :
    (t.makeRoom alive).nextId = t.nextId := by
  rw [makeRoom]
  split_ifs <;> rfl

theorem mem_assign {t : Identities} {d : Instance} {e : Entry}
    (h : e ∈ (t.assign d).2.entries) : e = ⟨d, ⟨t.nextId⟩⟩ ∨ e ∈ t.entries :=
  (List.mem_cons.mp h).imp_right List.mem_of_mem_filter

/-- a document has a number in the table, an old one or the next one -/
structure Told (t : Identities) (d : Instance) (id : DocumentId) (t' : Identities) : Prop where
  sound : t'.Sound
  mem : ⟨d, id⟩ ∈ t'.entries
  nextId_le : t.nextId ≤ t'.nextId
  old_or_new : ∀ e ∈ t'.entries, e = ⟨d, ⟨t.nextId⟩⟩ ∨ e ∈ t.entries

/-- a table without an entry for a document gives it the next number -/
theorem Sound.assign {t : Identities} (h : t.Sound) (alive : Nat → Bool) (d : Instance) :
    Told t d ((t.makeRoom alive).assign d).1 ((t.makeRoom alive).assign d).2 := by
  have hnext := nextId_makeRoom t alive
  have hmem : ∀ e ∈ ((t.makeRoom alive).assign d).2.entries,
      e = ⟨d, ⟨t.nextId⟩⟩ ∨ e ∈ t.entries := by
    intro e he
    rw [← hnext]
    exact (mem_assign he).imp_right mem_makeRoom
  have hsucc : ((t.makeRoom alive).assign d).2.nextId = t.nextId + 1 := by
    rw [← hnext]
    rfl
  refine ⟨⟨fun e he => ?_, fun e he e' he' hid => ?_⟩, List.mem_cons_self, ?_, hmem⟩
  · rw [hsucc]
    rcases hmem e he with rfl | he
    · exact Nat.lt_succ_self t.nextId
    · exact Nat.lt_succ_of_lt (h.below e he)
  · rcases hmem e he with rfl | he <;> rcases hmem e' he' with rfl | he'
    · rfl
    · have hlt := h.below e' he'
      rw [← hid] at hlt
      exact absurd hlt (Nat.lt_irrefl t.nextId)
    · have hlt := h.below e he
      rw [hid] at hlt
      exact absurd hlt (Nat.lt_irrefl t.nextId)
    · exact h.single e he e' he' hid
  · rw [hsucc]
    exact Nat.le_succ t.nextId

/-- the number of a document, at whose address the table knows no other one -/
theorem idOf_spec {t : Identities} (h : t.Sound) {alive : Nat → Bool} {d : Instance}
    (hd : ∀ e ∈ t.entries, e.document.address = d.address → e.document = d) :
    Told t d (t.idOf alive d).1 (t.idOf alive d).2 := by
  rw [idOf]
  cases hf : (t.find? d.address).filter (alive ·.document.serial) with
  | none => exact h.assign alive d
  | some e =>
    obtain ⟨hfind, -⟩ := Option.filter_eq_some_iff.mp hf
    have he := List.mem_of_find?_eq_some hfind
    have haddress := List.find?_some hfind
    have hdoc := hd e he (beq_iff_eq.mp haddress)
    refine ⟨h, ?_, Nat.le_refl _, fun e' he' => .inr he'⟩
    rw [← hdoc]
    exact he

end Identities

namespace Holdings

variable {α : Type}

def documents (h : Holdings α) : List (Instance × α) := h.held.map Prod.snd

theorem mem_of_find {h : Holdings α} {name : String} {d : Instance × α}
    (hf : h.find? name = some d) : d ∈ h.documents := by
  obtain ⟨before, after, hheld, -⟩ := List.lookup_eq_some_iff.mp hf
  rw [documents, hheld]
  exact List.mem_map_of_mem (List.mem_append_right before List.mem_cons_self)

theorem mem_release {h : Holdings α} {name : String} {d : Instance × α}
    (hd : d ∈ (h.release name).documents) : d ∈ h.documents := by
  obtain ⟨x, hx, rfl⟩ := List.mem_map.mp hd
  exact List.mem_map_of_mem (List.mem_of_mem_filter hx)

theorem mem_bind {h : Holdings α} {name : String} {d d' : Instance × α}
    (hd : d ∈ (h.bind name d').documents) : d = d' ∨ d ∈ h.documents :=
  (List.mem_cons.mp hd).imp_right mem_release

theorem mem_share {h : Holdings α} {name other : String} {d : Instance × α}
    (hd : d ∈ (h.share name other).documents) : d ∈ h.documents := by
  rw [share] at hd
  cases hf : h.find? other with
  | none => rwa [hf] at hd
  | some d' =>
    rw [hf] at hd
    rcases mem_bind hd with rfl | hd
    · exact mem_of_find hf
    · exact hd

theorem le_foldl_max (ns : List Nat) (m : Nat) :
    m ≤ ns.foldl max m ∧ ∀ n ∈ ns, n ≤ ns.foldl max m := by
  induction ns generalizing m with
  | nil => exact ⟨Nat.le_refl m, fun _ h => by cases h⟩
  | cons n ns ih =>
    obtain ⟨hmax, hns⟩ := ih (max m n)
    refine ⟨Nat.le_trans (Nat.le_max_left m n) hmax, fun k hk => ?_⟩
    rcases List.mem_cons.mp hk with rfl | hk
    · exact Nat.le_trans (Nat.le_max_right m k) hmax
    · exact hns k hk

end Holdings
end PathQuery
