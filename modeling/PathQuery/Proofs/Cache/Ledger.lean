import PathQuery.Proofs.Cache.Identities
import Mathlib.Data.List.Dedup
import Mathlib.Data.List.Perm.Subperm

/-!
# A document keeps its number

A host may keep a new document wherever no document is kept that it holds, or that the table still
knows. Documents come and go, and places are used again. All the same a document that is asked about
once more has the number that it had, no number is given to two documents, and the table does not
grow with the number of documents that have been.

* `Ledger`, `Ledger.Event`   a host with a table and all that has been told, and what a host does;
* `Ledger.run`               one thing after the other, if all of it can be done;
* `Identities.idOf_cases`    an answer is read from the table, or a new one is written down;
* `Ledger.Sound`             what holds at any time, after one event (`step`) and many (`run`);
* `Ledger.numbers_kept`      what follows for the numbers and for the size of the table.
-/

namespace PathQuery

/-! ## tables -/

namespace Identities

variable {t : Identities} {alive : Nat → Bool} {d : Instance}

/-- a document that is there, and at whose address the table knows no other one, has its entry in
the table already, or it gets the next number -/
theorem idOf_cases (hd : ∀ e ∈ t.entries, e.document.address = d.address → e.document = d)
    (hlive : alive d.serial = true) :
    (∃ e ∈ t.entries, e.document = d ∧ t.idOf alive d = (e.id, t)) ∨
      ((∀ e ∈ t.entries, e.document.address ≠ d.address) ∧
        t.idOf alive d = (t.makeRoom alive).assign d) := by
  rw [idOf, find?]
  cases hf : t.entries.find? (·.document.address == d.address) with
  | none =>
    refine .inr ⟨fun e he haddress => ?_, rfl⟩
    exact List.find?_eq_none.mp hf e he (beq_iff_eq.mpr haddress)
  | some e =>
    have he := List.mem_of_find?_eq_some hf
    have haddress := List.find?_some hf
    have hdoc := hd e he (beq_iff_eq.mp haddress)
    rw [Option.filter_some, hdoc, if_pos hlive]
    exact .inl ⟨e, he, hdoc, rfl⟩

theorem mem_makeRoom_of_alive {e : Entry} (he : e ∈ t.entries)
    (hlive : alive e.document.serial = true) : e ∈ (t.makeRoom alive).entries := by
  rw [makeRoom]
  split_ifs
  · exact List.mem_filter.mpr ⟨he, hlive⟩
  · exact he

theorem purge_sublist (t : Identities) (alive : Nat → Bool) :
    (t.purge alive).entries.Sublist t.entries := List.filter_sublist

theorem makeRoom_sublist (t : Identities) (alive : Nat → Bool) :
    (t.makeRoom alive).entries.Sublist t.entries := by
  rw [makeRoom]
  split_ifs
  · exact t.purge_sublist alive
  · exact List.Sublist.refl _

theorem size_makeRoom_lt (t : Identities) (alive : Nat → Bool) :
    (t.makeRoom alive).size < (t.makeRoom alive).purgeAt := by
  rw [makeRoom]
  split_ifs with hfull
  · show (t.purge alive).size < max ((t.purge alive).size * 2) purgeFloor
    rw [purgeFloor]
    omega
  · exact Nat.lt_of_not_le hfull

/-- the limit is left as it is, or set to twice what a purge leaves -/
theorem purgeAt_makeRoom (t : Identities) (alive : Nat → Bool) :
    (t.makeRoom alive).purgeAt = t.purgeAt ∨
      (t.makeRoom alive).purgeAt = max ((t.purge alive).size * 2) purgeFloor := by
  rw [makeRoom]
  split_ifs
  · exact .inr rfl
  · exact .inl rfl

theorem size_assign_le (t : Identities) (d : Instance) : (t.assign d).2.size ≤ t.size + 1 :=
  Nat.succ_le_succ (List.length_filter_le _ _)

end Identities

/-! ## hosts -/

namespace Holdings

variable {α : Type} {h : Holdings α}

/-- the documents that some name holds, whatever they contain -/
def instances (h : Holdings α) : List Instance := h.documents.map Prod.fst

/-- the number of documents that are there, each counted once however many names it has -/
def count (h : Holdings α) : Nat := h.instances.dedup.length

/-- a new document under a name, kept at an address -/
def holdAt (h : Holdings α) (name : String) (address : Nat) (content : α) : Holdings α :=
  { h with nextSerial := h.nextSerial + 1 }.bind name (⟨h.nextSerial, address⟩, content)

theorem isAlive_iff {serial : Nat} :
    h.isAlive serial = true ↔ ∃ i ∈ h.instances, i.serial = serial := by
  rw [isAlive, List.any_eq_true, instances, documents, List.map_map]
  constructor
  · rintro ⟨x, hx, hserial⟩
    exact ⟨_, List.mem_map_of_mem hx, beq_iff_eq.mp hserial⟩
  · rintro ⟨i, hi, hserial⟩
    obtain ⟨x, hx, rfl⟩ := List.mem_map.mp hi
    exact ⟨x, hx, beq_iff_eq.mpr hserial⟩

theorem isAlive_of_mem {i : Instance} (hi : i ∈ h.instances) : h.isAlive i.serial = true :=
  isAlive_iff.mpr ⟨i, hi, rfl⟩

theorem instances_mono {h' : Holdings α} (hsub : ∀ d ∈ h'.documents, d ∈ h.documents) {i : Instance}
    (hi : i ∈ h'.instances) : i ∈ h.instances := by
  obtain ⟨d, hd, rfl⟩ := List.mem_map.mp hi
  exact List.mem_map_of_mem (hsub d hd)

theorem nextSerial_share (h : Holdings α) (name other : String) :
    (h.share name other).nextSerial = h.nextSerial := by
  rw [share]
  cases h.find? other <;> rfl

theorem mem_holdAt {name : String} {address : Nat} {content : α} {i : Instance}
    (hi : i ∈ (h.holdAt name address content).instances) :
    i = ⟨h.nextSerial, address⟩ ∨ i ∈ h.instances := by
  obtain ⟨d, hd, rfl⟩ := List.mem_map.mp hi
  rcases mem_bind hd with rfl | hd
  · exact .inl rfl
  · exact .inr (List.mem_map_of_mem hd)

end Holdings

/-! ## runs -/

/-- a host with a table of documents, and what has come of it so far -/
structure Ledger (α : Type) where
  host : Holdings α
  ids : Identities
  /-- the documents that were asked about with the numbers that were told, the latest first -/
  told : List (Instance × DocumentId)
  /-- the greatest number of documents that were there at one time -/
  peak : Nat

inductive Ledger.Event (α : Type) where
  /-- a new document, kept at an address, under a name -/
  | hold (name : String) (address : Nat) (content : α)
  /-- a second name for the document under another name -/
  | share (name other : String)
  | release (name : String)
  /-- the number of the document under a name is asked for -/
  | ask (name : String)
  /-- the entries of released documents are removed -/
  | purge

namespace Ledger

variable {α : Type}

def start : Ledger α := ⟨.empty, .empty, [], 0⟩

/-- whether a new document may be kept at an address -/
def isFree (l : Ledger α) (address : Nat) : Bool :=
  l.host.instances.all (·.address != address) &&
    l.ids.entries.all (·.document.address != address)

def change (l : Ledger α) (host : Holdings α) : Ledger α :=
  { l with host := host, peak := max l.peak host.count }

def tell (l : Ledger α) (d : Instance) : Ledger α :=
  let (id, ids) := l.ids.idOf l.host.isAlive d
  { l with ids := ids, told := (d, id) :: l.told }

/-- what becomes of it all if the host does something that it can do -/
def step (l : Ledger α) : Event α → Option (Ledger α)
  | .hold name address content =>
    if l.isFree address then some (l.change (l.host.holdAt name address content)) else none
  | .share name other => some (l.change (l.host.share name other))
  | .release name => some (l.change (l.host.release name))
  | .ask name => (l.host.find? name).map fun d => l.tell d.1
  | .purge => some { l with ids := l.ids.purge l.host.isAlive }

def run : Ledger α → List (Event α) → Option (Ledger α)
  | l, [] => some l
  | l, event :: events => (l.step event).bind (·.run events)

/-! ## what holds at any time -/

/-- documents are told apart, those that are known by their serial numbers and those that are held
by their addresses, too -/
structure Apart (held known : List Instance) (next : Nat) : Prop where
  below : ∀ i ∈ known, i.serial < next
  serial : ∀ i ∈ known, ∀ j ∈ known, i.serial = j.serial → i = j
  address : ∀ i ∈ held, ∀ j ∈ held, i.address = j.address → i = j

/-- the numbers that have been told: one for a document and one document for each, and a number
that is told for the first time is the greatest so far -/
structure Faithful (told : List (Instance × DocumentId)) (next : Nat) : Prop where
  below : ∀ x ∈ told, x.2.number < next
  iff : ∀ x ∈ told, ∀ y ∈ told, x.1 = y.1 ↔ x.2 = y.2
  rising : ∀ x earlier, x :: earlier <:+ told → (∀ y ∈ earlier, y.1 ≠ x.1) →
    ∀ y ∈ earlier, y.2.number < x.2.number

/-- the table has what has been told of the documents that are held, and all that it has is true -/
structure Tracks (t : Identities) (held : List Instance) (told : List (Instance × DocumentId)) :
    Prop where
  listed : ∀ e ∈ t.entries, (e.document, e.id) ∈ told
  pinned : ∀ e ∈ t.entries, ∀ i ∈ held, e.document.address = i.address → e.document = i
  kept : ∀ x ∈ told, x.1 ∈ held → ⟨x.1, x.2⟩ ∈ t.entries
  nodup : (t.entries.map (·.document.address)).Nodup

/-- the table has room, but not more than twice what was needed at one time -/
structure Bounded (t : Identities) (peak : Nat) : Prop where
  size_le : t.size ≤ t.purgeAt
  purgeAt_le : t.purgeAt ≤ max 64 (2 * peak)

/-- the documents that are held, and those that were asked about -/
def known (l : Ledger α) : List Instance := l.host.instances ++ l.told.map Prod.fst

structure Sound (l : Ledger α) : Prop where
  apart : Apart l.host.instances l.known l.host.nextSerial
  faithful : Faithful l.told l.ids.nextId
  tracks : Tracks l.ids l.host.instances l.told
  bounded : Bounded l.ids l.peak
  count_le : l.host.count ≤ l.peak

theorem sound_start : (start : Ledger α).Sound where
  apart := ⟨nofun, nofun, nofun⟩
  faithful := ⟨nofun, nofun, fun _ _ h => absurd (List.suffix_nil.mp h) nofun⟩
  tracks := ⟨nofun, nofun, nofun, List.nodup_nil⟩
  bounded := ⟨Nat.zero_le _, Nat.le_refl _⟩
  count_le := Nat.le_refl _

theorem isFree_iff {l : Ledger α} {address : Nat} : l.isFree address = true ↔
    (∀ i ∈ l.host.instances, i.address ≠ address) ∧
      ∀ e ∈ l.ids.entries, e.document.address ≠ address := by
  simp only [isFree, Bool.and_eq_true, List.all_eq_true, bne_iff_ne]

theorem mem_known {l : Ledger α} {i : Instance} :
    i ∈ l.known ↔ i ∈ l.host.instances ∨ ∃ x ∈ l.told, x.1 = i := by
  rw [known, List.mem_append, List.mem_map]

theorem Apart.mono {held held' known known' : List Instance} {next : Nat}
    (h : Apart held known next) (hheld : ∀ i ∈ held', i ∈ held) (hknown : ∀ i ∈ known', i ∈ known) :
    Apart held' known' next :=
  ⟨fun i hi => h.below i (hknown i hi),
    fun i hi j hj => h.serial i (hknown i hi) j (hknown j hj),
    fun i hi j hj => h.address i (hheld i hi) j (hheld j hj)⟩

theorem Bounded.mono {t : Identities} {peak peak' : Nat} (h : Bounded t peak) (hp : peak ≤ peak') :
    Bounded t peak' :=
  ⟨h.size_le, Nat.le_trans h.purgeAt_le (by omega)⟩

/-! ### the host holds other documents -/

theorem Sound.fewer {l : Ledger α} (h : l.Sound) {host : Holdings α}
    (hsub : ∀ d ∈ host.documents, d ∈ l.host.documents)
    (hnext : host.nextSerial = l.host.nextSerial) : (l.change host).Sound := by
  have hheld (i : Instance) (hi : i ∈ host.instances) : i ∈ l.host.instances :=
    Holdings.instances_mono hsub hi
  refine ⟨?_, h.faithful, ⟨h.tracks.listed, fun e he i hi => ?_, fun x hx hi => ?_, h.tracks.nodup⟩,
    h.bounded.mono (Nat.le_max_left _ _), Nat.le_max_right _ _⟩
  · have hapart : Apart host.instances (l.change host).known l.host.nextSerial :=
      h.apart.mono hheld fun i hi => mem_known.mpr ((mem_known.mp hi).imp_left (hheld i))
    rw [← hnext] at hapart
    exact hapart
  · exact h.tracks.pinned e he i (hheld i hi)
  · exact h.tracks.kept x hx (hheld x.1 hi)

/-- a new document, at an address that is free, is not taken for another one -/
theorem Sound.hold {l : Ledger α} (h : l.Sound) {address : Nat} (ha : l.isFree address = true)
    (name : String) (content : α) : (l.change (l.host.holdAt name address content)).Sound := by
  obtain ⟨hhost, hids⟩ := isFree_iff.mp ha
  set new : Instance := ⟨l.host.nextSerial, address⟩ with hnew
  have hheld (i : Instance) (hi : i ∈ (l.host.holdAt name address content).instances) :
      i = new ∨ i ∈ l.host.instances := Holdings.mem_holdAt hi
  have hknown (i : Instance) (hi : i ∈ (l.change (l.host.holdAt name address content)).known) :
      i = new ∨ i ∈ l.known := by
    rcases mem_known.mp hi with hi | hi
    · exact (hheld i hi).imp_right fun hi => mem_known.mpr (.inl hi)
    · exact .inr (mem_known.mpr (.inr hi))
  have hne (i : Instance) (hi : i ∈ l.known) : i.serial ≠ new.serial :=
    Nat.ne_of_lt (h.apart.below i hi)
  refine ⟨⟨fun i hi => ?_, fun i hi j hj hserial => ?_, fun i hi j hj haddress => ?_⟩, h.faithful,
    ⟨h.tracks.listed, fun e he i hi haddress => ?_, fun x hx hi => ?_, h.tracks.nodup⟩,
    h.bounded.mono (Nat.le_max_left _ _), Nat.le_max_right _ _⟩
  · show i.serial < l.host.nextSerial + 1
    rcases hknown i hi with rfl | hi
    · exact Nat.lt_succ_self _
    · exact Nat.lt_succ_of_lt (h.apart.below i hi)
  · rcases hknown i hi with rfl | hi <;> rcases hknown j hj with rfl | hj
    · rfl
    · exact absurd hserial.symm (hne j hj)
    · exact absurd hserial (hne i hi)
    · exact h.apart.serial i hi j hj hserial
  · rcases hheld i hi with rfl | hi <;> rcases hheld j hj with rfl | hj
    · rfl
    · exact absurd haddress.symm (hhost j hj)
    · exact absurd haddress (hhost i hi)
    · exact h.apart.address i hi j hj haddress
  · rcases hheld i hi with rfl | hi
    · exact absurd haddress (hids e he)
    · exact h.tracks.pinned e he i hi haddress
  · rcases hheld x.1 hi with hx' | hi
    · -- nothing has been told of a document that is new
      exact absurd (congrArg Instance.serial hx') (hne x.1 (mem_known.mpr (.inr ⟨x, hx, rfl⟩)))
    · exact h.tracks.kept x hx hi

/-! ### the table is purged -/

/-- an entry is about a document that is held, if some document with its serial number is -/
theorem Sound.entry_held {l : Ledger α} (h : l.Sound) {e : Identities.Entry}
    (he : e ∈ l.ids.entries) (hlive : l.host.isAlive e.document.serial = true) :
    e.document ∈ l.host.instances := by
  obtain ⟨i, hi, hserial⟩ := Holdings.isAlive_iff.mp hlive
  have hknown : e.document ∈ l.known := mem_known.mpr (.inr ⟨_, h.tracks.listed e he, rfl⟩)
  rw [← h.apart.serial i (mem_known.mpr (.inl hi)) _ hknown hserial]
  exact hi

theorem Sound.size_purge_le {l : Ledger α} (h : l.Sound) :
    (l.ids.purge l.host.isAlive).size ≤ l.host.count := by
  have hnodup : ((l.ids.purge l.host.isAlive).entries.map Identities.Entry.document).Nodup := by
    have haddress := h.tracks.nodup.sublist ((l.ids.purge_sublist l.host.isAlive).map _)
    refine List.Nodup.of_map Instance.address ?_
    rw [List.map_map]
    exact haddress
  have hsub : (l.ids.purge l.host.isAlive).entries.map Identities.Entry.document ⊆
      l.host.instances.dedup := by
    intro i hi
    obtain ⟨e, he, rfl⟩ := List.mem_map.mp hi
    obtain ⟨he, hlive⟩ := List.mem_filter.mp he
    exact List.mem_dedup.mpr (h.entry_held he hlive)
  have hle := (List.subperm_of_subset hnodup hsub).length_le
  rwa [List.length_map] at hle

theorem Sound.purge {l : Ledger α} (h : l.Sound) :
    Sound { l with ids := l.ids.purge l.host.isAlive } := by
  have hsub := l.ids.purge_sublist l.host.isAlive
  refine ⟨h.apart, h.faithful, ⟨?_, ?_, ?_, ?_⟩, ⟨?_, h.bounded.purgeAt_le⟩, h.count_le⟩
  · exact fun e he => h.tracks.listed e (hsub.subset he)
  · exact fun e he => h.tracks.pinned e (hsub.subset he)
  · exact fun x hx hheld =>
      List.mem_filter.mpr ⟨h.tracks.kept x hx hheld, Holdings.isAlive_of_mem hheld⟩
  · exact h.tracks.nodup.sublist (hsub.map _)
  · exact Nat.le_trans hsub.length_le h.bounded.size_le

/-! ### a number is told -/

theorem Faithful.again {told : List (Instance × DocumentId)} {next : Nat} (h : Faithful told next)
    {x : Instance × DocumentId} (hx : x ∈ told) : Faithful (x :: told) next := by
  have hmem : ∀ y ∈ x :: told, y ∈ told := fun y hy =>
    (List.mem_cons.mp hy).elim (fun heq => heq ▸ hx) id
  refine ⟨fun y hy => h.below y (hmem y hy), fun y hy z hz => h.iff y (hmem y hy) z (hmem z hz),
    fun y earlier hsuffix hfirst => ?_⟩
  rcases List.suffix_cons_iff.mp hsuffix with heq | hsuffix
  · obtain ⟨rfl, rfl⟩ := List.cons.inj heq
    exact absurd rfl (hfirst y hx)
  · exact h.rising y earlier hsuffix hfirst

/-- the next number is told of a document that was never asked about -/
theorem Faithful.first {told : List (Instance × DocumentId)} {next : Nat} (h : Faithful told next)
    {d : Instance} (hd : ∀ x ∈ told, x.1 ≠ d) : Faithful ((d, ⟨next⟩) :: told) (next + 1) := by
  have hne : ∀ x ∈ told, x.2 ≠ ⟨next⟩ := by
    intro x hx heq
    have hlt := h.below x hx
    rw [heq] at hlt
    exact absurd hlt (Nat.lt_irrefl next)
  refine ⟨fun x hx => ?_, fun x hx y hy => ?_, fun x earlier hsuffix hfirst => ?_⟩
  · rcases List.mem_cons.mp hx with rfl | hx
    · exact Nat.lt_succ_self next
    · exact Nat.lt_succ_of_lt (h.below x hx)
  · rcases List.mem_cons.mp hx with rfl | hx <;> rcases List.mem_cons.mp hy with rfl | hy
    · exact ⟨fun _ => rfl, fun _ => rfl⟩
    · exact ⟨fun heq => absurd heq.symm (hd y hy), fun heq => absurd heq.symm (hne y hy)⟩
    · exact ⟨fun heq => absurd heq (hd x hx), fun heq => absurd heq (hne x hx)⟩
    · exact h.iff x hx y hy
  · rcases List.suffix_cons_iff.mp hsuffix with heq | hsuffix
    · obtain ⟨rfl, rfl⟩ := List.cons.inj heq
      exact h.below
    · exact h.rising x earlier hsuffix hfirst

theorem Sound.again {l : Ledger α} (h : l.Sound) {d : Instance} (hd : d ∈ l.host.instances)
    {e : Identities.Entry} (he : e ∈ l.ids.entries) (hdoc : e.document = d) :
    Sound { l with told := (d, e.id) :: l.told } := by
  subst hdoc
  have htold := h.tracks.listed e he
  have hmem : ∀ x ∈ (e.document, e.id) :: l.told, x ∈ l.told := fun x hx =>
    (List.mem_cons.mp hx).elim (fun heq => heq ▸ htold) id
  refine ⟨h.apart.mono (fun i hi => hi) fun i hi => ?_, h.faithful.again htold,
    ⟨fun e he => List.mem_cons_of_mem _ (h.tracks.listed e he), h.tracks.pinned,
      fun x hx => h.tracks.kept x (hmem x hx), h.tracks.nodup⟩, h.bounded, h.count_le⟩
  exact mem_known.mpr ((mem_known.mp hi).imp_right fun ⟨x, hx, hi⟩ => ⟨x, hmem x hx, hi⟩)

theorem Sound.first {l : Ledger α} (h : l.Sound) {d : Instance} (hd : d ∈ l.host.instances)
    (hnone : ∀ e ∈ l.ids.entries, e.document.address ≠ d.address) :
    Sound { l with
      ids := ((l.ids.makeRoom l.host.isAlive).assign d).2
      told := (d, ((l.ids.makeRoom l.host.isAlive).assign d).1) :: l.told } := by
  set room := l.ids.makeRoom l.host.isAlive with hroom
  have hsub : room.entries.Sublist l.ids.entries := Identities.makeRoom_sublist _ _
  have hnext : room.nextId = l.ids.nextId := Identities.nextId_makeRoom _ _
  have hfresh : ∀ x ∈ l.told, x.1 ≠ d := by
    intro x hx heq
    exact hnone _ (h.tracks.kept x hx (heq ▸ hd)) (congrArg Instance.address heq)
  have hmem : ∀ e ∈ (room.assign d).2.entries, e = ⟨d, ⟨room.nextId⟩⟩ ∨ e ∈ l.ids.entries :=
    fun e he => (Identities.mem_assign he).imp_right (hsub.subset ·)
  have hlimit : room.purgeAt ≤ max 64 (2 * l.peak) := by
    have hcount := h.size_purge_le
    have hpeak := h.count_le
    have hold := h.bounded.purgeAt_le
    rcases l.ids.purgeAt_makeRoom l.host.isAlive with heq | heq
    · rw [hroom, heq]
      exact hold
    · rw [hroom, heq, Identities.purgeFloor]
      omega
  refine ⟨h.apart.mono (fun i hi => hi) fun i hi => ?_, ?_,
    ⟨fun e he => ?_, fun e he i hi haddress => ?_, fun x hx hi => ?_, ?_⟩, ⟨?_, hlimit⟩, h.count_le⟩
  · rcases mem_known.mp hi with hi | ⟨x, hx, rfl⟩
    · exact mem_known.mpr (.inl hi)
    · rcases List.mem_cons.mp hx with rfl | hx
      · exact mem_known.mpr (.inl hd)
      · exact mem_known.mpr (.inr ⟨x, hx, rfl⟩)
  · have hfirst := h.faithful.first hfresh
    rw [← hnext] at hfirst
    exact hfirst
  · rcases hmem e he with rfl | he
    · exact List.mem_cons_self
    · exact List.mem_cons_of_mem _ (h.tracks.listed e he)
  · rcases hmem e he with rfl | he
    · exact h.apart.address d hd i hi haddress
    · exact h.tracks.pinned e he i hi haddress
  · rcases List.mem_cons.mp hx with rfl | hx
    · exact List.mem_cons_self
    · have he := h.tracks.kept x hx hi
      refine List.mem_cons_of_mem _ (List.mem_filter.mpr ⟨?_, bne_iff_ne.mpr (hnone _ he)⟩)
      exact Identities.mem_makeRoom_of_alive he (Holdings.isAlive_of_mem hi)
  · refine List.nodup_cons.mpr ⟨fun hin => ?_, ?_⟩
    · obtain ⟨e, he, haddress⟩ := List.mem_map.mp hin
      exact bne_iff_ne.mp (List.mem_filter.mp he).2 haddress
    · exact h.tracks.nodup.sublist ((List.filter_sublist.trans hsub).map _)
  · exact Nat.le_trans (room.size_assign_le d) (Identities.size_makeRoom_lt _ _)

theorem Sound.tell {l : Ledger α} (h : l.Sound) {d : Instance} (hd : d ∈ l.host.instances) :
    (l.tell d).Sound := by
  have hpinned : ∀ e ∈ l.ids.entries, e.document.address = d.address → e.document = d :=
    fun e he => h.tracks.pinned e he d hd
  rw [Ledger.tell]
  rcases Identities.idOf_cases hpinned (Holdings.isAlive_of_mem hd) with
    ⟨e, he, hdoc, hids⟩ | ⟨hnone, hids⟩
  · rw [hids]
    exact h.again hd he hdoc
  · rw [hids]
    exact h.first hd hnone

/-! ### whatever happens -/

theorem Sound.step {l l' : Ledger α} (h : l.Sound) {event : Event α}
    (hl : l.step event = some l') : l'.Sound := by
  cases event with
  | hold name address content =>
    rw [Ledger.step] at hl
    split_ifs at hl with ha
    obtain rfl := Option.some.inj hl
    exact h.hold ha name content
  | share name other =>
    obtain rfl := Option.some.inj hl
    exact h.fewer (fun d hd => Holdings.mem_share hd) (Holdings.nextSerial_share _ name other)
  | release name =>
    obtain rfl := Option.some.inj hl
    exact h.fewer (fun d hd => Holdings.mem_release hd) rfl
  | ask name =>
    obtain ⟨d, hd, rfl⟩ := Option.map_eq_some_iff.mp hl
    exact h.tell (List.mem_map_of_mem (Holdings.mem_of_find hd))
  | purge =>
    obtain rfl := Option.some.inj hl
    exact h.purge

theorem Sound.run {l l' : Ledger α} (h : l.Sound) {events : List (Event α)}
    (hl : l.run events = some l') : l'.Sound := by
  induction events generalizing l with
  | nil =>
    obtain rfl := Option.some.inj hl
    exact h
  | cons event events ih =>
    obtain ⟨l₁, hstep, hrun⟩ := Option.bind_eq_some_iff.mp hl
    exact ih (h.step hstep) hrun

/-- **A document keeps its number, and nothing else gets it.** Whatever a host has done, all that
has been told of one document is one number, and of two documents two numbers; a number that was
told of a document for the first time is greater than all that were told before; and the table is at
most twice as large as the greatest number of documents that were there at one time, if that is more
than the size below which it is not purged. -/
theorem numbers_kept {events : List (Event α)} {l : Ledger α} (h : start.run events = some l) :
    (∀ x ∈ l.told, ∀ y ∈ l.told, x.1 = y.1 ↔ x.2 = y.2) ∧
      (∀ x earlier, x :: earlier <:+ l.told → (∀ y ∈ earlier, y.1 ≠ x.1) →
        ∀ y ∈ earlier, y.2.number < x.2.number) ∧
      l.ids.size ≤ max 64 (2 * l.peak) := by
  have hsound := sound_start.run h
  exact ⟨hsound.faithful.iff, hsound.faithful.rising,
    Nat.le_trans hsound.bounded.size_le hsound.bounded.purgeAt_le⟩

/-- a second document at the address of the first, once that has been released and forgotten -/
theorem numbers_kept_reused :
    let events := [.hold "a" 7 (), .ask "a", .share "b" "a", .release "a", .ask "b", .release "b",
      .purge, .hold "c" 7 (), .ask "c"]
    ∃ l : Ledger Unit, start.run events = some l ∧
      l.told = [(⟨1, 7⟩, ⟨2⟩), (⟨0, 7⟩, ⟨1⟩), (⟨0, 7⟩, ⟨1⟩)] ∧ l.peak = 1 ∧
      (∀ x ∈ l.told, ∀ y ∈ l.told, x.1 = y.1 ↔ x.2 = y.2) ∧
      (∀ x earlier, x :: earlier <:+ l.told → (∀ y ∈ earlier, y.1 ≠ x.1) →
        ∀ y ∈ earlier, y.2.number < x.2.number) ∧
      l.ids.size ≤ max 64 (2 * l.peak) := by
  intro events
  exact ⟨_, rfl, rfl, rfl, @numbers_kept Unit events _ rfl⟩

end Ledger
end PathQuery
