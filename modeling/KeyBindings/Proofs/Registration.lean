import KeyBindings.Proofs.Interference
import KeyBindings.Script.Replay

/-!
# Bindings registered by their texts

The bindings of a replay are registered one after another, and the first text that stands for no
binding ends it.

* `Pattern.Accepted` -- a text stands for a binding;
* **`exists_registerAll_iff`** -- the registration succeeds exactly if every text is accepted;
* `run_of_registerAll` -- it is then a run of a host that registers one text after another;
* **`numbered_texts`** -- in a new manager each binding keeps its text, and its id is the place of
  that text.
-/

namespace KeyBindings

/-- A text stands for a binding. -/
def Pattern.Accepted (naming : KeyNaming) (binding : String) : Prop :=
  ∃ accepted, Pattern.ofBinding naming binding = .ok accepted

namespace Manager

variable {m m' : Manager Unit} {binding : String} {bindings : List String}

/-- The first text is registered, and then the others. -/
theorem registerAll_cons_eq_ok_iff :
    m.registerAll (binding :: bindings) = .ok m' ↔
      ∃ registered id, m.tryRegister binding () = (registered, .ok id) ∧
        registered.registerAll bindings = .ok m' := by
  rw [registerAll]
  obtain ⟨registered, answer⟩ := m.tryRegister binding ()
  cases answer with
  | error e => exact iff_of_false nofun fun ⟨_, _, h, _⟩ => nomatch h
  | ok id =>
    constructor
    · exact fun h => ⟨registered, id, rfl, h⟩
    · intro h
      obtain ⟨_, _, h, hrest⟩ := h
      cases h
      exact hrest

/-- A text is registered exactly if it stands for a binding. -/
theorem exists_tryRegister_iff {α : Type} (m : Manager α) (binding : String) (callback : α) :
    (∃ registered id, m.tryRegister binding callback = (registered, .ok id)) ↔
      Pattern.Accepted m.settings.naming binding := by
  constructor
  · intro h
    obtain ⟨registered, id, h⟩ := h
    obtain ⟨pattern, mode, haccepted, -⟩ := tryRegister_eq_ok_iff.mp h
    exact ⟨(pattern, mode), haccepted⟩
  · intro h
    obtain ⟨⟨pattern, mode⟩, haccepted⟩ := h
    exact ⟨_, _, tryRegister_eq_ok_iff.mpr ⟨pattern, mode, haccepted, rfl, rfl⟩⟩

/-- A registration leaves the settings as they are. -/
theorem settings_of_tryRegister {id : BindingId} (h : m.tryRegister binding () = (m', .ok id)) :
    m'.settings = m.settings := by
  obtain ⟨pattern, mode, -, -, rfl⟩ := tryRegister_eq_ok_iff.mp h
  rfl

/-- **All texts are registered exactly if each of them stands for a binding.** -/
theorem exists_registerAll_iff :
    (∃ m', m.registerAll bindings = .ok m') ↔
      ∀ binding ∈ bindings, Pattern.Accepted m.settings.naming binding := by
  induction bindings generalizing m with
  | nil => exact iff_of_true ⟨m, rfl⟩ fun _ h => absurd h List.not_mem_nil
  | cons binding bindings ih =>
    rw [List.forall_mem_cons, ← exists_tryRegister_iff m binding ()]
    constructor
    · intro h
      obtain ⟨m', h⟩ := h
      obtain ⟨registered, id, hfirst, hrest⟩ := registerAll_cons_eq_ok_iff.mp h
      refine ⟨⟨registered, id, hfirst⟩, ?_⟩
      rw [← settings_of_tryRegister hfirst]
      exact ih.mp ⟨m', hrest⟩
    · intro h
      obtain ⟨⟨registered, id, hfirst⟩, hrest⟩ := h
      rw [← settings_of_tryRegister hfirst] at hrest
      obtain ⟨m', h⟩ := ih.mpr hrest
      exact ⟨m', registerAll_cons_eq_ok_iff.mpr ⟨registered, id, hfirst, h⟩⟩

/-- What is left of a new manager once all texts are registered is what a run leaves in which a host
    registers them. -/
theorem run_of_registerAll (h : m.registerAll bindings = .ok m') :
    m.run (bindings.map fun binding => .register binding ()) = m' := by
  induction bindings generalizing m with
  | nil => exact Except.ok.inj h
  | cons binding bindings ih =>
    obtain ⟨registered, id, hfirst, hrest⟩ := registerAll_cons_eq_ok_iff.mp h
    have hstep : m.step (.register binding ()) = registered := by
      rw [step, register, hfirst]
    show (m.step (.register binding ())).run _ = m'
    rw [hstep, ih hrest]

/-- Registering texts is nothing that a tracker is told. -/
theorem tracker_of_registerAll (h : m.registerAll bindings = .ok m') : m'.tracker = m.tracker := by
  induction bindings generalizing m with
  | nil => rw [← Except.ok.inj h]
  | cons binding bindings ih =>
    obtain ⟨registered, id, hfirst, hrest⟩ := registerAll_cons_eq_ok_iff.mp h
    obtain ⟨pattern, mode, -, -, rfl⟩ := tryRegister_eq_ok_iff.mp hfirst
    rw [ih hrest]

/-- The texts are added behind the bindings there are, under the ids that come next. -/
theorem numbered_texts_append (h : m.registerAll bindings = .ok m') :
    m'.registry.bindings.map (fun b => (b.source, b.id)) =
      m.registry.bindings.map (fun b => (b.source, b.id)) ++
        bindings.zipIdx m.registry.nextId := by
  induction bindings generalizing m with
  | nil =>
    obtain rfl := Except.ok.inj h
    exact (List.append_nil _).symm
  | cons binding bindings ih =>
    obtain ⟨registered, id, hfirst, hrest⟩ := registerAll_cons_eq_ok_iff.mp h
    obtain ⟨pattern, mode, -, -, rfl⟩ := tryRegister_eq_ok_iff.mp hfirst
    rw [ih hrest, Registry.insert, List.map_append, List.append_assoc, List.zipIdx_cons]
    rfl

/-- **Each binding of a new manager has its text, and the place of the text as its id.** -/
theorem numbered_texts {settings : Settings}
    (h : (new settings).registerAll bindings = .ok m) :
    m.registry.bindings.map (fun b => (b.source, b.id)) = bindings.zipIdx :=
  numbered_texts_append h

/-- The text of a binding of a new manager. -/
theorem getElem?_id_of_mem {settings : Settings} (h : (new settings).registerAll bindings = .ok m)
    {b : Binding Unit} (hb : b ∈ m.registry.bindings) : bindings[b.id]? = some b.source := by
  have hmem : (b.source, b.id) ∈ bindings.zipIdx := numbered_texts h ▸ List.mem_map_of_mem hb
  exact List.mem_zipIdx_iff_getElem?.mp hmem

/-- A new manager has as many bindings as there are texts. -/
theorem size_of_registerAll {settings : Settings}
    (h : (new settings).registerAll bindings = .ok m) : m.registry.size = bindings.length := by
  have hlength := congrArg List.length (numbered_texts h)
  rwa [List.length_map, List.length_zipIdx] at hlength

/-- The bindings of a new manager are in order. -/
theorem ordered_of_registerAll {settings : Settings}
    (h : (new settings).registerAll bindings = .ok m) : m.registry.Ordered :=
  run_of_registerAll h ▸ ordered_run settings _

end Manager

end KeyBindings
