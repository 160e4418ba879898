import KeyBindings.Proofs.History
import KeyBindings.Proofs.ManagerRun

/-!
# What a manager tells its tracker, and which bindings it fires

Whatever a host does to a manager comes down to two things: operations that the tracker is told, and
bindings that come and go.

* `Manager.trackerOps` -- what a run of a manager tells the tracker; the tracker of a manager is
  where these operations lead (`tracker_run`), so its history is theirs;
* `Registry.Numbered` -- ids are handed out in order and never again;
* `Registry.Ordered` -- ids rise in the order of registration, so what runs runs in the order of ids
  and each id names one binding;
* `Registry.Only` -- a binding is the only one under its id; it stays that until it is taken out
  (`only_run`);
* `registry_run` -- what a registration and a removal keep holds of the bindings after every run;
* `Fired.ofBindings`, `Fired.callsOf` -- the two traces of what runs, side by side: those of some
  bindings, and the callbacks that were called for one id;
* `Registry.dispatch_eq_ofBindings` -- collecting places first and running the bindings there
  afterwards leaves the traces of what is complete;
* **`callsOf_feed`**: a transition then fires the binding once or not at all, and which it is is
  decided by the binding's pattern against the tracker after the transition;
* **`fired_eq`**: the same for an operation of any kind -- what it runs is read off the bindings, the
  tracker after it and its instant.
-/

namespace KeyBindings

variable {α : Type}

/-! ## 1. Bindings under their ids -/

namespace Registry

variable {r : Registry α} {b : Binding α}

/-- Every id that was handed out is below the next one. -/
def Numbered (r : Registry α) : Prop := ∀ b ∈ r.bindings, b.id < r.nextId

theorem numbered_empty : (empty : Registry α).Numbered := fun _ hb => absurd hb List.not_mem_nil

theorem Numbered.insert (h : r.Numbered) (source : String) (pattern : Pattern) (mode : Mode)
    (callback : α) : (r.insert source pattern mode callback).1.Numbered := by
  intro b hb
  rcases List.mem_append.mp hb with hb | hb
  · exact Nat.lt_succ_of_lt (h b hb)
  · rw [List.mem_singleton.mp hb]
    exact Nat.lt_succ_self _

theorem Numbered.without (h : r.Numbered) (id : BindingId) : (r.without id).Numbered :=
  fun b hb => h b (List.mem_of_mem_filter hb)

/-- Nothing is registered under an id that was not handed out yet. -/
theorem Numbered.without_eq_self (h : r.Numbered) {id : BindingId} (hid : r.nextId ≤ id) :
    r.without id = r := by
  have hall : r.bindings.filter (·.id ≠ id) = r.bindings :=
    List.filter_eq_self.mpr fun b hb => decide_eq_true (Nat.ne_of_lt (lt_of_lt_of_le (h b hb) hid))
  rw [Registry.without, hall]

/-- Ids rise in the order of registration, up to the next one. -/
structure Ordered (r : Registry α) : Prop where
  numbered : r.Numbered
  rising : r.ids.Pairwise (· < ·)

theorem ordered_empty : (empty : Registry α).Ordered := ⟨numbered_empty, List.Pairwise.nil⟩

theorem Ordered.insert (h : r.Ordered) (source : String) (pattern : Pattern) (mode : Mode)
    (callback : α) : (r.insert source pattern mode callback).1.Ordered where
  numbered := h.numbered.insert source pattern mode callback
  rising := by
    rw [ids_insert, List.pairwise_append]
    refine ⟨h.rising, List.pairwise_singleton _ _, fun id hid next hnext => ?_⟩
    obtain ⟨b, hb, rfl⟩ := List.mem_map.mp hid
    rw [List.mem_singleton.mp hnext]
    exact h.numbered b hb

theorem Ordered.without (h : r.Ordered) (id : BindingId) : (r.without id).Ordered where
  numbered := h.numbered.without id
  rising := by
    rw [ids_without]
    exact h.rising.filter _

/-- Each binding is found under its id. -/
theorem Ordered.find?_id (h : r.Ordered) (hb : b ∈ r.bindings) : r.find? b.id = some b := by
  have hnodup : r.ids.Nodup := h.rising.imp Nat.ne_of_lt
  cases hfound : r.find? b.id with
  | none => exact absurd (decide_eq_true rfl) (List.find?_eq_none.mp hfound b hb)
  | some found =>
    have hmem : found ∈ r.bindings := List.mem_of_find?_eq_some hfound
    have hid := List.find?_some hfound
    rw [List.inj_on_of_nodup_map hnodup hmem hb (of_decide_eq_true hid)]

/-- A binding is registered, and no other one has its id, now or later. -/
structure Only (r : Registry α) (b : Binding α) : Prop where
  numbered : r.Numbered
  filter_id : r.bindings.filter (·.id = b.id) = [b]

/-- What is registered is the only one under its id. -/
theorem Numbered.only_insert (h : r.Numbered) (source : String) (pattern : Pattern) (mode : Mode)
    (callback : α) :
    (r.insert source pattern mode callback).1.Only ⟨r.nextId, source, pattern, mode, callback⟩ where
  numbered := h.insert source pattern mode callback
  filter_id := by
    have hnone : r.bindings.filter (·.id = r.nextId) = [] :=
      List.filter_eq_nil_iff.mpr fun b hb hid =>
        Nat.ne_of_lt (h b hb) (of_decide_eq_true hid)
    show (r.bindings ++ _).filter _ = _
    rw [List.filter_append, hnone]
    simp

theorem Only.mem (h : r.Only b) : b ∈ r.bindings := by
  have hb : b ∈ r.bindings.filter (·.id = b.id) := by
    rw [h.filter_id]
    exact List.mem_singleton_self b
  exact List.mem_of_mem_filter hb

/-- A later binding has another id. -/
theorem Only.insert (h : r.Only b) (source : String) (pattern : Pattern) (mode : Mode)
    (callback : α) : (r.insert source pattern mode callback).1.Only b where
  numbered := h.numbered.insert source pattern mode callback
  filter_id := by
    have hother : r.nextId ≠ b.id := Nat.ne_of_gt (h.numbered b h.mem)
    show (r.bindings ++ _).filter _ = _
    rw [List.filter_append, h.filter_id]
    simp [hother]

/-- Taking another binding out leaves this one. -/
theorem Only.without (h : r.Only b) {id : BindingId} (hid : id ≠ b.id) : (r.without id).Only b where
  numbered := h.numbered.without id
  filter_id := by
    have hkeep : [b].filter (·.id ≠ id) = [b] := by simp [hid.symm]
    show (r.bindings.filter (·.id ≠ id)).filter (·.id = b.id) = [b]
    rw [List.filter_filter]
    calc
      r.bindings.filter (fun c => decide (c.id = b.id) && decide (c.id ≠ id)) =
          (r.bindings.filter (·.id = b.id)).filter (·.id ≠ id) := by
        rw [List.filter_filter]
        exact List.filter_congr fun c _ => Bool.and_comm _ _
      _ = [b] := by rw [h.filter_id, hkeep]

theorem Only.find? (h : r.Only b) : r.find? b.id = some b := by
  rw [Registry.find?, ← List.head?_filter, h.filter_id]
  rfl

/-- **Of the bindings with its id that are complete, it is the one or there is none.** -/
theorem Only.filter_id_complete (h : r.Only b) (t : Tracker) (now : Instant) :
    (r.complete t now).filter (·.id = b.id) = if b.fires t now then [b] else [] := by
  have hswap : (r.complete t now).filter (·.id = b.id) =
      (r.bindings.filter (·.id = b.id)).filter fun c => c.fires t now := by
    rw [complete, List.filter_filter, List.filter_filter]
    exact List.filter_congr fun c _ => Bool.and_comm _ _
  rw [hswap, h.filter_id, List.filter_singleton, Bool.cond_eq_ite]

end Registry

/-! ## 2. The two traces of what runs -/

namespace Fired

/-- What is left of running bindings one after another. -/
def ofBindings (bs : List (Binding α)) : Fired α := ⟨bs.map (·.callback), bs.map (·.id)⟩

/-- The callbacks that were called for an id: those that stand beside it. -/
def callsOf (fired : Fired α) (id : BindingId) : List α :=
  ((fired.ids.zip fired.called).filter (·.1 = id)).map (·.2)

theorem ids_ofBindings (bs : List (Binding α)) : (ofBindings bs).ids = bs.map (·.id) := rfl

theorem called_ofBindings (bs : List (Binding α)) :
    (ofBindings bs).called = bs.map (·.callback) := rfl

theorem zip_ofBindings (bs : List (Binding α)) :
    (ofBindings bs).ids.zip (ofBindings bs).called = bs.map fun b => (b.id, b.callback) :=
  List.zip_map'

/-- As many ids are noted as callbacks are called. -/
theorem length_ofBindings (bs : List (Binding α)) :
    (ofBindings bs).ids.length = (ofBindings bs).called.length :=
  (List.length_map _).trans (List.length_map _).symm

theorem callsOf_ofBindings (bs : List (Binding α)) (id : BindingId) :
    (ofBindings bs).callsOf id = (bs.filter (·.id = id)).map (·.callback) := by
  rw [callsOf, zip_ofBindings, List.filter_map, List.map_map]
  rfl

end Fired

namespace Registry

/-- **Running the bindings at their places calls their callbacks and notes their ids**, in the same
    order and behind what ran before. -/
theorem foldl_fireAt {r : Registry α} {placed : List (Binding α × Nat)}
    (h : ∀ p ∈ placed, r.bindings[p.2]? = some p.1) (fired : Fired α) :
    (placed.map (·.2)).foldl r.fireAt fired =
      ⟨fired.called ++ placed.map (·.1.callback), fired.ids ++ placed.map (·.1.id)⟩ := by
  induction placed generalizing fired with
  | nil => simp only [List.map_nil, List.append_nil, List.foldl_nil]
  | cons p placed ih =>
    obtain ⟨hp, hrest⟩ := List.forall_mem_cons.mp h
    rw [List.map_cons, List.foldl_cons, fireAt, hp, ih hrest]
    simp only [Fired.call, Fired.note, List.map_cons, List.append_assoc, List.singleton_append]

/-- **What is run is what is complete**, whatever was taken out before: each place collected is
    the place of its binding still when it is run. -/
theorem dispatch_eq_ofBindings (r : Registry α) (t : Tracker) (now : Instant) :
    r.dispatch t now = .ofBindings (r.complete t now) := by
  have hplace : ∀ placed ∈ r.bindings.zipIdx.filter (fun placed => placed.1.fires t now),
      r.bindings[placed.2]? = some placed.1 := fun placed hp =>
    List.mem_zipIdx_iff_getElem?.mp (List.mem_of_mem_filter hp)
  have hcomplete : (r.bindings.zipIdx.filter fun placed => placed.1.fires t now).map (·.1) =
      r.complete t now := by
    rw [complete, ← List.zipIdx_map_fst 0 r.bindings, List.filter_map]
    simp only [List.zipIdx_map_fst]
    rfl
  rw [dispatch, completePlaces, foldl_fireAt hplace, ← hcomplete, Fired.ofBindings, List.map_map,
    List.map_map]
  rfl

end Registry

namespace Manager

variable {m : Manager α} {b : Binding α}

/-! ## 3. What the tracker is told -/

/-- What an operation tells the tracker, if anything: an event tells the input it counts under, and
    a repeat, an event without an input and a change of the bindings tell nothing. -/
def trackerOp? (m : Manager α) : ManagerOp α → Option TrackerOp
  | .press input now => some (.press input now)
  | .release input now => some (.release input now)
  | .clear => some .clear
  | .handle event now =>
    match event.action with
    | .repeat => none
    | .press => (event.input? m.settings.naming).map (.press · now)
    | .release =>
      ((m.knownInput? event).or (event.input? m.settings.naming)).map (.release · now)
  | .register _ _ | .unregister _ => none

/-- What the operations of a run tell the tracker. -/
def trackerOps (m : Manager α) : List (ManagerOp α) → List TrackerOp
  | [] => []
  | op :: ops => (m.trackerOp? op).toList ++ (m.step op).trackerOps ops

/-- An operation changes the tracker as the tracker is told. -/
theorem tracker_step (m : Manager α) (op : ManagerOp α) :
    (m.step op).tracker = m.tracker.run (m.trackerOp? op).toList := by
  cases op with
  | press input now => rfl
  | release input now => rfl
  | clear => rfl
  | unregister id => rfl
  | register binding callback =>
    obtain ⟨registry, hm⟩ := exists_registry_register m binding callback
    rw [step, hm]
    rfl
  | handle event now =>
    rw [step, handle, trackerOp?]
    cases event.action with
    | «repeat» => rfl
    | press =>
      cases event.input? m.settings.naming with
      | none => rfl
      | some input =>
        show ((m.noteCode event input).press input now).1.tracker = m.tracker.press input now
        rw [tracker_press, tracker_noteCode]
    | release =>
      cases (m.knownInput? event).or (event.input? m.settings.naming) with
      | none => exact tracker_dropCode m event
      | some input =>
        show ((m.dropCode event).release input now).1.tracker = m.tracker.release input now
        rw [tracker_release, tracker_dropCode]

/-- **The tracker of a manager is where the operations lead that it was told.** -/
theorem tracker_run (m : Manager α) (ops : List (ManagerOp α)) :
    (m.run ops).tracker = m.tracker.run (m.trackerOps ops) := by
  induction ops generalizing m with
  | nil => rfl
  | cons op ops ih =>
    show ((m.step op).run ops).tracker = _
    rw [ih, tracker_step, trackerOps, Tracker.run_append]

/-- **The tracker of a manager follows what it was told** since it was new: in a run, and in what
    is done to a later manager with the tracker of that run. -/
theorem follows_trackerOps (settings : Settings) (before after : List (ManagerOp α))
    {m : Manager α} (hm : m.tracker = ((new settings).run before).tracker) :
    (m.run after).tracker.Follows
      (History.ofOps ((new settings).trackerOps before ++ m.trackerOps after)) := by
  rw [tracker_run, hm, tracker_run, ← Tracker.run_append]
  exact Tracker.follows_run settings.limits _

/-! ## 4. Bindings of a run -/

/-- A text that is accepted is registered under the next id. -/
theorem tryRegister_eq_ok_iff {binding : String} {callback : α} {m' : Manager α} {id : BindingId} :
    m.tryRegister binding callback = (m', .ok id) ↔
      ∃ pattern mode, Pattern.ofBinding m.settings.naming binding = .ok (pattern, mode) ∧
        id = m.registry.nextId ∧
        m' = { m with registry := (m.registry.insert binding pattern mode callback).1 } := by
  rw [tryRegister]
  cases Pattern.ofBinding m.settings.naming binding with
  | error e => simp
  | ok accepted =>
    obtain ⟨pattern, mode⟩ := accepted
    constructor
    · intro h
      cases h
      exact ⟨pattern, mode, rfl, rfl, rfl⟩
    · rintro ⟨_, _, haccepted, rfl, rfl⟩
      cases haccepted
      rfl

/-- What an operation does to the bindings: it adds one, takes one out, or leaves them. -/
theorem registry_step (m : Manager α) (op : ManagerOp α) :
    (∃ source pattern mode callback, op = .register source callback ∧
      (m.step op).registry = (m.registry.insert source pattern mode callback).1) ∨
    (∃ id, op = .unregister id ∧ (m.step op).registry = m.registry.without id) ∨
    (m.step op).registry = m.registry := by
  cases op with
  | register binding callback =>
    rw [step, register, tryRegister]
    cases Pattern.ofBinding m.settings.naming binding with
    | error e => exact Or.inr (Or.inr rfl)
    | ok accepted => exact Or.inl ⟨binding, accepted.1, accepted.2, callback, rfl, rfl⟩
  | unregister id => exact Or.inr (Or.inl ⟨id, rfl, rfl⟩)
  | press input now => exact Or.inr (Or.inr rfl)
  | release input now => exact Or.inr (Or.inr rfl)
  | clear => exact Or.inr (Or.inr rfl)
  | handle event now => exact Or.inr (Or.inr (registry_handle m event now))

/-- **What every registration and every removal keeps, every run keeps.** -/
theorem registry_run {P : Registry α → Prop} (empty : P .empty)
    (insert : ∀ {r : Registry α}, P r → ∀ source pattern mode callback,
      P (r.insert source pattern mode callback).1)
    (without : ∀ {r : Registry α}, P r → ∀ id, P (r.without id))
    (settings : Settings) (ops : List (ManagerOp α)) : P ((new settings).run ops).registry := by
  induction ops using List.reverseRecOn with
  | nil => exact empty
  | append_singleton ops op ih =>
    rw [run_concat]
    rcases registry_step ((new settings).run ops) op with
      ⟨source, pattern, mode, callback, -, hr⟩ | ⟨id, -, hr⟩ | hr
    · exact hr ▸ insert ih source pattern mode callback
    · exact hr ▸ without ih id
    · exact hr ▸ ih

/-- Ids stay in order through every run. -/
theorem numbered_run (settings : Settings) (ops : List (ManagerOp α)) :
    ((new settings).run ops).registry.Numbered :=
  registry_run Registry.numbered_empty (fun h => h.insert) (fun h => h.without) settings ops

/-- What is registered in a run for a text: its pattern under a new id, in a manager that has seen
    the same. -/
theorem only_of_tryRegister {settings : Settings} {before : List (ManagerOp α)} {binding : String}
    {callback : α} {id : BindingId}
    (h : ((new settings).run before).tryRegister binding callback = (m, .ok id)) :
    ∃ p mode, Pattern.ofBinding settings.naming binding = .ok (p, mode) ∧
      m.tracker = ((new settings).run before).tracker ∧
      m.registry.Only ⟨id, binding, p, mode, callback⟩ := by
  obtain ⟨p, mode, haccepted, rfl, rfl⟩ := tryRegister_eq_ok_iff.mp h
  rw [settings_run] at haccepted
  exact ⟨p, mode, haccepted, rfl, (numbered_run settings before).only_insert binding p mode callback⟩

/-- **A binding stays the only one under its id until it is taken out.** -/
theorem only_run (h : m.registry.Only b) {ops : List (ManagerOp α)}
    (hops : ∀ op ∈ ops, op ≠ .unregister b.id) : (m.run ops).registry.Only b := by
  induction ops using List.reverseRecOn with
  | nil => exact h
  | append_singleton ops op ih =>
    have hbefore := ih fun o ho => hops o (List.mem_append_left _ ho)
    rw [run_concat]
    rcases registry_step (m.run ops) op with
      ⟨source, pattern, mode, callback, -, hr⟩ | ⟨id, rfl, hr⟩ | hr
    · exact hr ▸ hbefore.insert source pattern mode callback
    · refine hr ▸ hbefore.without fun e => ?_
      exact hops _ (List.mem_append_right _ (List.mem_singleton_self _)) (e ▸ rfl)
    · exact hr ▸ hbefore

/-! ## 5. What a transition fires -/

/-- A press or release of an input, and what it fires. -/
def feed (m : Manager α) (entry : Transition) : Manager α × Fired α :=
  if entry.pressed then m.press entry.input entry.time else m.release entry.input entry.time

/-- A transition fires what is complete in the tracker after it. -/
theorem fired_feed (m : Manager α) (entry : Transition) :
    (m.feed entry).2 = .ofBindings (m.registry.complete (m.tracker.step entry.op) entry.time) := by
  rw [feed, Transition.op]
  split <;> exact Registry.dispatch_eq_ofBindings _ _ _

/-- A transition notes as many ids as it calls callbacks. -/
theorem length_ids_feed (m : Manager α) (entry : Transition) :
    (m.feed entry).2.ids.length = (m.feed entry).2.called.length := by
  rw [fired_feed]
  exact Fired.length_ofBindings _

/-- **A transition fires a binding once or not at all.** -/
theorem callsOf_feed (h : m.registry.Only b) (entry : Transition) :
    (m.feed entry).2.callsOf b.id =
      if b.fires (m.tracker.step entry.op) entry.time then [b.callback] else [] := by
  rw [fired_feed, Fired.callsOf_ofBindings, h.filter_id_complete]
  split <;> rfl

/-- The instant of the transition that an operation makes, if it makes one. -/
def firesAt? (m : Manager α) (op : ManagerOp α) : Option Instant :=
  (m.trackerOp? op).bind TrackerOp.instant?

/-- What an operation fires. -/
def fired (m : Manager α) : ManagerOp α → Fired α
  | .press input now => (m.press input now).2
  | .release input now => (m.release input now).2
  | .handle event now => (m.handle event now).2
  | .register _ _ | .unregister _ | .clear => .nothing

/-- The bindings that are complete in the tracker after an operation, if it makes a transition. -/
def firing (m : Manager α) (op : ManagerOp α) : List (Binding α) :=
  (m.firesAt? op).elim [] (m.registry.complete (m.step op).tracker)

/-- **A transition runs what is complete in the tracker after it, and nothing else runs anything.**
    What runs depends on the bindings, on the tracker and on the instant alone. -/
theorem fired_eq (m : Manager α) (op : ManagerOp α) : m.fired op = .ofBindings (m.firing op) := by
  cases op with
  | register binding callback => rfl
  | unregister id => rfl
  | clear => rfl
  | press input now => exact Registry.dispatch_eq_ofBindings _ _ _
  | release input now => exact Registry.dispatch_eq_ofBindings _ _ _
  | handle event now =>
    rw [fired, firing, firesAt?, step, handle, trackerOp?]
    cases event.action with
    | «repeat» => rfl
    | press =>
      cases event.input? m.settings.naming with
      | none => rfl
      | some input =>
        show ((m.noteCode event input).press input now).1.dispatch now = _
        rw [dispatch, Registry.dispatch_eq_ofBindings, registry_press, registry_noteCode]
        rfl
    | release =>
      cases (m.knownInput? event).or (event.input? m.settings.naming) with
      | none => rfl
      | some input =>
        show ((m.dropCode event).release input now).1.dispatch now = _
        rw [dispatch, Registry.dispatch_eq_ofBindings, registry_release, registry_dropCode]
        rfl

end Manager

end KeyBindings
