import PathQuery.Pattern.Engine
import PathQuery.Proofs.Cache.Recent
import PathQuery.Proofs.Engine.Worlds
import PathQuery.Proofs.Path.Evaluation

/-!
# The result cache is transparent

Whatever a host has done before, a query is answered as if nothing had been cached.

* `IsOutput`       what a canonical text leads to;
* `Remembers`      all that is cached about documents still there is right;
* `World.Sound`    what holds of an engine and its host at any time;
* `Sound.query`, `Sound.step`   a query, or anything else, leaves it so;
* `Sound.run`      so does any run.
-/

namespace PathQuery
open Stateful

variable {E : RegexEngine} {c : Config} {r : Registry}

/-- what the paths with a canonical text lead to in a document -/
def IsOutput (E : RegexEngine) (c : Config) (r : Registry) (d : Document) (path : String)
    (output : Output) : Prop :=
  ∃ text p, Path.compile c.parse text = .ok p ∧ p.text = path ∧
    (p.evaluate (r.hooks E) d c.evaluate).alone = .ok output

/-- it does not matter which of the paths with that text is asked for -/
theorem IsOutput.alone {d : Document} {p : Path} {output : Output}
    (h : IsOutput E c r d p.text output) {text : String}
    (hp : Path.compile c.parse text = .ok p) :
    (p.evaluate (r.hooks E) d c.evaluate).alone = .ok output := by
  obtain ⟨s, q, hq, htext, houtput⟩ := h
  exact Path.evaluate_of_text hq hp htext.symm houtput

/-- what is cached belongs to ids that have been given, and is right for the documents
that are still there -/
structure Remembers (E : RegexEngine) (c : Config) (r : Registry) (t : Identities)
    (documents : List (Instance × Document)) (l : Recent Output) : Prop where
  given : ∀ x ∈ l, x.1.document.number < t.nextId
  right : ∀ x ∈ l, ∀ e ∈ t.entries, e.id = x.1.document →
    ∀ d ∈ documents, e.document = d.1 → IsOutput E c r d.2 x.1.path x.2

namespace World

/-- what holds of an engine with some settings, when some things are registered -/
structure Sound (c : Config) (r : Registry) (w : World E) : Prop where
  config : w.engine.config = c
  registry : w.engine.registry = r
  session : w.engine.session.Sound
  ids : w.ids.Sound
  apart : ∀ d ∈ w.host.documents, ∀ d' ∈ w.host.documents,
    d.1.address = d'.1.address → d = d'
  pinned : ∀ e ∈ w.ids.entries, ∀ d ∈ w.host.documents,
    e.document.address = d.1.address → e.document = d.1
  results : ∃ is l, w.engine.outputs.results.Holds is l ∧
    Remembers E c r w.ids w.host.documents l

theorem sound_start {e : Engine E} (h : Engine.withConfig c = .ok e) :
    (start e).Sound c .empty := by
  have he : e = Engine.ofConfig c := by
    unfold Engine.withConfig at h
    cases hv : c.validate with
    | error fault =>
      rw [hv] at h
      cases h
    | ok u =>
      rw [hv] at h
      exact (Except.ok.inj h).symm
  subst he
  refine ⟨rfl, rfl, Session.sound_fresh, Identities.sound_empty, ?_, ?_, ?_⟩
  · intro d hd
    cases hd
  · intro e he
    cases he
  · refine ⟨[], [], .new _, ?_, ?_⟩
    · intro x hx
      cases hx
    · intro x hx
      cases hx

/-! ## queries -/

theorem Sound.told {w : World E} (h : w.Sound c r) {d : Instance × Document}
    (hd : d ∈ w.host.documents) {id : DocumentId} {t : Identities}
    (ht : w.ids.Told d.1 id t) :
    Sound c r { w with engine := { w.engine with
      outputs := { w.engine.outputs with ids := t } } } := by
  obtain ⟨is, l, hholds, hgiven, hright⟩ := h.results
  refine ⟨h.config, h.registry, h.session, ht.sound, h.apart, ?_, is, l, hholds, ?_, ?_⟩
  · intro e he d' hd' haddress
    rcases ht.old_or_new e he with rfl | he
    · exact congrArg Prod.fst (h.apart d hd d' hd' haddress)
    · exact h.pinned e he d' hd' haddress
  · intro x hx
    exact Nat.lt_of_lt_of_le (hgiven x hx) ht.nextId_le
  · intro x hx e he hid
    rcases ht.old_or_new e he with rfl | he
    · -- nothing is cached under an id that is new
      have hlt := hgiven x hx
      rw [← hid] at hlt
      exact absurd hlt (Nat.lt_irrefl _)
    · exact hright x hx e he hid

/-- what is known of a query when its path has been read and its document has a number -/
theorem Sound.answer [E.Deterministic] {w : World E} (h : w.Sound c r) {d : Instance × Document}
    (hd : d ∈ w.host.documents) {id : DocumentId} (hid : ⟨d.1, id⟩ ∈ w.ids.entries)
    {text : String} {p : Path} (hp : Path.compile c.parse text = .ok p) :
    (w.engine.answer ⟨id, p.text⟩ d.2 p).1 = (p.evaluate (r.hooks E) d.2 c.evaluate).alone ∧
      Sound c r { w with engine := (w.engine.answer ⟨id, p.text⟩ d.2 p).2 } ∧
      ∀ e, (w.engine.answer ⟨id, p.text⟩ d.2 p).1 = .error e →
        (w.engine.answer ⟨id, p.text⟩ d.2 p).2.outputs.results.recent =
          w.engine.outputs.results.recent := by
  obtain ⟨is, l, hholds, hgiven, hright⟩ := h.results
  have hlt : id.number < w.ids.nextId := h.ids.below ⟨d.1, id⟩ hid
  obtain ⟨hfound, is', hholds'⟩ := hholds.get ⟨id, p.text⟩
  have hsame : (w.engine.outputs.results.get ⟨id, p.text⟩).1 = none → _ := hholds.get_none
  rw [Engine.answer, OutputCache.get]
  generalize w.engine.outputs.results.get ⟨id, p.text⟩ = got at hfound hholds' hsame ⊢
  obtain ⟨found, results⟩ := got
  cases found with
  | some output =>
    have hmem := Recent.mem_of_get hfound.symm
    have houtput := hright _ hmem ⟨d.1, id⟩ hid rfl d hd rfl
    refine ⟨(houtput.alone hp).symm, ⟨h.config, h.registry, h.session, h.ids, h.apart, h.pinned,
      is', _, hholds', ?_, ?_⟩, nofun⟩
    · exact fun x hx => hgiven x (Recent.mem_get hx)
    · exact fun x hx => hright x (Recent.mem_get hx)
  | none =>
    obtain rfl := hsame rfl
    have hcount := hholds.count w.engine.outputs.results.hits
      (w.engine.outputs.results.misses + 1)
    obtain ⟨t, ht, hrun⟩ := (p.steady_evaluate (E := E) r d.2 c.evaluate).run h.session
    have hrun' :
        p.evaluate (w.engine.registry.hooks E) d.2 w.engine.config.evaluate w.engine.session
          = ending (p.evaluate (r.hooks E) d.2 c.evaluate).alone t := by
      rw [h.registry, h.config]
      exact hrun
    dsimp only
    rw [hrun']
    cases halone : (p.evaluate (r.hooks E) d.2 c.evaluate).alone with
    | error e =>
      exact ⟨rfl, ⟨h.config, h.registry, ht, h.ids, h.apart, h.pinned, is, l, hcount, hgiven,
        hright⟩, fun _ _ => hcount.recent.trans hholds.recent.symm⟩
    | ok output =>
      obtain ⟨is'', hset⟩ := hcount.set ⟨id, p.text⟩ output
      refine ⟨rfl, ⟨h.config, h.registry, ht, h.ids, h.apart, h.pinned, is'', _, hset, ?_, ?_⟩,
        nofun⟩
      · intro x hx
        rcases Recent.mem_set hx with rfl | hx
        · exact hlt
        · exact hgiven x hx
      · intro x hx e he hide d' hd' hdoc
        rcases Recent.mem_set hx with rfl | hx
        · -- the number belongs to the document that was asked about
          have hown : d = d' := by
            have hinst := (h.ids.single e he _ hid hide).symm.trans hdoc
            exact h.apart d hd d' hd' (congrArg Instance.address hinst)
          rw [← hown]
          exact ⟨text, p, hp, rfl, halone⟩
        · exact hright x hx e he hide d' hd' hdoc

/-- a query is answered as if nothing had been cached; if that is an error, the cache
stays as it is -/
theorem Sound.query [E.Deterministic] {w : World E} (h : w.Sound c r) {d : Instance × Document}
    (hd : d ∈ w.host.documents) (text : String) :
    (w.query d text).1 = c.answer E r d.2 text ∧
      Sound c r { w with engine := (w.query d text).2 } ∧
      ∀ e, (w.query d text).1 = .error e →
        (w.query d text).2.outputs.results.recent = w.engine.outputs.results.recent := by
  have hparse : Path.compile w.engine.config.parse text = Path.compile c.parse text := by
    rw [h.config]
  cases hp : Path.compile c.parse text with
  | error e =>
    have hquery : w.query d text = (.error e, w.engine) := by
      rw [World.query, Engine.query, hparse, hp]
    rw [hquery, Config.answer, hp]
    exact ⟨rfl, h, fun _ _ => rfl⟩
  | ok p =>
    have htold : w.ids.Told d.1 (w.ids.idOf w.host.isAlive d.1).1
        (w.ids.idOf w.host.isAlive d.1).2 :=
      Identities.idOf_spec h.ids fun e he haddress => h.pinned e he d hd haddress
    have hquery : w.query d text = { w.engine with outputs := { w.engine.outputs with
        ids := (w.ids.idOf w.host.isAlive d.1).2 } }.answer
          ⟨(w.ids.idOf w.host.isAlive d.1).1, p.text⟩ d.2 p := by
      rw [World.query, Engine.query, hparse, hp]
      rfl
    have hanswer : c.answer E r d.2 text = (p.evaluate (r.hooks E) d.2 c.evaluate).alone := by
      rw [Config.answer, hp]
      rfl
    rw [hquery, hanswer]
    exact (h.told hd htold).answer hd htold.mem hp

/-! ## everything else -/

theorem Sound.fewer {w : World E} (h : w.Sound c r) {host : Holdings Document}
    (hsub : ∀ d ∈ host.documents, d ∈ w.host.documents) : Sound c r { w with host := host } := by
  obtain ⟨is, l, hholds, hgiven, hright⟩ := h.results
  refine ⟨h.config, h.registry, h.session, h.ids, ?_, ?_, is, l, hholds, hgiven, ?_⟩
  · exact fun d hd d' hd' => h.apart d (hsub d hd) d' (hsub d' hd')
  · exact fun e he d hd => h.pinned e he d (hsub d hd)
  · exact fun x hx e he hid d hd => hright x hx e he hid d (hsub d hd)

theorem Sound.hold {w : World E} (h : w.Sound c r) {address : Nat} (ha : w.isFree address = true)
    (name : String) (content : Document) : (w.hold name address content).Sound c r := by
  obtain ⟨is, l, hholds, hgiven, hright⟩ := h.results
  obtain ⟨hhost, hids⟩ := (w.isFree_iff address).mp ha
  refine ⟨h.config, h.registry, h.session, h.ids, ?_, ?_, is, l, hholds, hgiven, ?_⟩
  · intro d hd d' hd' heq
    rcases Holdings.mem_bind hd with rfl | hd <;> rcases Holdings.mem_bind hd' with rfl | hd'
    · rfl
    · exact absurd heq.symm (hhost d' hd')
    · exact absurd heq (hhost d hd)
    · exact h.apart d hd d' hd' heq
  · intro e he d hd heq
    rcases Holdings.mem_bind hd with rfl | hd
    · exact absurd heq (hids e he)
    · exact h.pinned e he d hd heq
  · intro x hx e he hid d hd hdoc
    rcases Holdings.mem_bind hd with rfl | hd
    · exact absurd (congrArg Instance.address hdoc) (hids e he)
    · exact hright x hx e he hid d hd hdoc

theorem Sound.registered {w : World E} (h : w.Sound c r) (r' : Registry) :
    Sound c r' { w with engine := { w.engine with
      registry := r', outputs := w.engine.outputs.clear } } := by
  refine ⟨h.config, rfl, h.session, h.ids, h.apart, h.pinned, [], [], .new _, ?_, ?_⟩
  · intro x hx
    cases hx
  · intro x hx
    cases hx

theorem Sound.step [E.Deterministic] {w w' : World E} (h : w.Sound c r) {event : Event}
    (hw : w.step event = some w') : w'.Sound c (event.register r) := by
  cases event with
  | hold name address content =>
    rw [World.step] at hw
    split_ifs at hw with ha
    obtain rfl := Option.some.inj hw
    exact h.hold ha name content
  | share name other =>
    obtain rfl := Option.some.inj hw
    exact h.fewer fun d hd => Holdings.mem_share hd
  | release name =>
    obtain rfl := Option.some.inj hw
    exact h.fewer fun d hd => Holdings.mem_release hd
  | query name text =>
    obtain ⟨d, hd, rfl⟩ := Option.map_eq_some_iff.mp hw
    exact (h.query (Holdings.mem_of_find hd) text).2.1
  | registerOperator name run =>
    obtain rfl := Option.some.inj hw
    obtain rfl := h.registry
    exact h.registered _
  | registerFunction name f =>
    obtain rfl := Option.some.inj hw
    obtain rfl := h.registry
    exact h.registered _
  | clearCache =>
    obtain rfl := Option.some.inj hw
    obtain rfl := h.registry
    exact h.registered _

theorem Sound.run [E.Deterministic] {w w' : World E} (h : w.Sound c r) {events : List Event}
    (hw : w.run events = some w') : w'.Sound c (events.foldl Event.register r) := by
  induction events generalizing w r with
  | nil =>
    obtain rfl := Option.some.inj hw
    exact h
  | cons event events ih =>
    obtain ⟨w₁, hstep, hrun⟩ := Option.bind_eq_some_iff.mp hw
    exact ih (h.step hstep) hrun

/-- **The result cache is transparent.** After any run, a query about any document that
the host holds is answered as it would be from the settings and what is registered alone; and if
the answer is an error, the cached outputs stay as they are, in their order of recency. -/
theorem query_answer [E.Deterministic] {e : Engine E} (he : Engine.withConfig c = .ok e)
    {events : List Event} {w : World E} (hw : (start e).run events = some w) {name : String}
    {d : Instance × Document} (hd : w.host.find? name = some d) (text : String) :
    (w.query d text).1 = c.answer E (registered events) d.2 text ∧
      ∀ err, (w.query d text).1 = .error err →
        (w.query d text).2.outputs.results.recent = w.engine.outputs.results.recent := by
  have h := (sound_start he).run hw
  obtain ⟨hanswer, -, herror⟩ := h.query (Holdings.mem_of_find hd) text
  exact ⟨hanswer, herror⟩

/-- a document that has got a second name, asked about again when an operator is registered -/
theorem query_answer_shared :
    let E := Pattern.engine
    let events := [.hold "a" 1 (.list [.integer 1, .integer 2]), .hold "b" 2 .null,
      .query "a" "$[?@ near 2]", .query "b" "$..x", .registerOperator "near" fun _ _ => true,
      .query "a" "$[?(@ near 2)]", .query "a" "$[?(@ matches '1')]", .share "b" "a", .release "a"]
    Engine.withConfig .default = .ok (.default : Engine E) ∧
      ∃ w : World E, (start .default).run events = some w ∧
        ∃ d, w.host.find? "b" = some d ∧ d.1.address = 1 ∧
          (w.query d "$[?@ near 2]").1 =
            Config.default.answer E (registered events) d.2 "$[?@ near 2]" ∧
          ∀ err, (w.query d "$[?@ near 2]").1 = .error err →
            (w.query d "$[?@ near 2]").2.outputs.results.recent = w.engine.outputs.results.recent :=
  ⟨rfl, _, rfl, (⟨0, 1⟩, .list [.integer 1, .integer 2]), rfl, rfl,
    @query_answer Pattern.engine _ _ _ rfl _ _ rfl "b" _ rfl _⟩

end World
end PathQuery
