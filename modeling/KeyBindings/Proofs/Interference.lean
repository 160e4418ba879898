import KeyBindings.Proofs.Dispatch
import Mathlib.Data.Nat.Count

/-!
# Bindings do not interfere

Bindings share a tracker, the ids and the order in which they run. None of that lets one binding
disturb another: with any set of bindings left out of a run -- never registered, never taken out --
each of the rest runs at the same transitions as before.

* `rank` -- the id that a binding gets where some earlier ones were never registered;
* `Manager.trim` -- what is left of a manager without some bindings, the rest with their new ids;
* `Manager.opsWithout` -- a run without everything that is done to these bindings;
* `trim_step`, `trim_run` -- the shorter run leads to what is left of the longer run's manager. This
  is an EQUATION of managers, not only a relation, so trackers and bindings agree at once;
* **`bindings_do_not_interfere`**: what follows for the tracker and for what runs at each step.
-/

namespace KeyBindings

variable {α : Type}

/-! ## 1. Some bindings left out -/

section Trim

variable {gone : BindingId → Bool} {id : BindingId}

/-- The id that a binding gets where the ones that are gone were never registered: it counts the
    ids before it that are not gone. -/
def rank (gone : BindingId → Bool) (id : BindingId) : BindingId := Nat.count (gone · = false) id

theorem rank_succ (gone : BindingId → Bool) (id : BindingId) :
    rank gone (id + 1) = if gone id then rank gone id else rank gone id + 1 := by
  rw [rank, Nat.count_succ, ← rank]
  cases gone id <;> rfl

/-- Two ids that are not gone stay two. -/
theorem rank_inj {id' : BindingId} (h : gone id = false) (h' : gone id' = false) :
    rank gone id = rank gone id' ↔ id = id' :=
  ⟨fun e => Nat.count_injective h h' e, fun e => e ▸ rfl⟩

/-- A binding under its new id. -/
def Binding.renumber (gone : BindingId → Bool) (b : Binding α) : Binding α :=
  { b with id := rank gone b.id }

/-- Among the ids that are not gone, each stands as its new id where it stood before. -/
theorem mem_map_rank_iff {ids : List BindingId} (h : gone id = false) :
    rank gone id ∈ (ids.filter (!gone ·)).map (rank gone) ↔ id ∈ ids := by
  constructor
  · intro hmem
    obtain ⟨other, hother, he⟩ := List.mem_map.mp hmem
    obtain ⟨hids, hgone⟩ := List.mem_filter.mp hother
    rwa [← (rank_inj (by simpa using hgone) h).mp he]
  · intro hmem
    exact List.mem_map_of_mem (List.mem_filter.mpr ⟨hmem, by simp [h]⟩)

/-- What is kept notes its new ids. -/
theorem Fired.ids_renumber (gone : BindingId → Bool) (bs : List (Binding α)) :
    (ofBindings ((bs.filter (!gone ·.id)).map (·.renumber gone))).ids =
      ((ofBindings bs).ids.filter (!gone ·)).map (rank gone) := by
  rw [ids_ofBindings, ids_ofBindings, List.filter_map, List.map_map, List.map_map]
  rfl

/-- What is kept calls the callbacks that stood beside the ids that are kept. -/
theorem Fired.called_renumber (gone : BindingId → Bool) (bs : List (Binding α)) :
    (ofBindings ((bs.filter (!gone ·.id)).map (·.renumber gone))).called =
      (((ofBindings bs).ids.zip (ofBindings bs).called).filter (!gone ·.1)).map (·.2) := by
  rw [called_ofBindings, zip_ofBindings, List.filter_map, List.map_map, List.map_map]
  rfl

/-- Of a binding that is not gone, the same callbacks are called under its new id. -/
theorem Fired.callsOf_renumber (h : gone id = false) (bs : List (Binding α)) :
    (ofBindings ((bs.filter (!gone ·.id)).map (·.renumber gone))).callsOf (rank gone id) =
      (ofBindings bs).callsOf id := by
  have hsame : ∀ b ∈ bs, (decide ((b.renumber gone).id = rank gone id) && !gone b.id) =
      decide (b.id = id) := by
    intro b _
    cases hb : gone b.id with
    | true =>
      have hne : b.id ≠ id := by
        rintro rfl
        exact Bool.false_ne_true (h.symm.trans hb)
      simp [hne]
    | false => simp [Binding.renumber, rank_inj hb h]
  rw [callsOf_ofBindings, callsOf_ofBindings, List.filter_map, List.map_map, List.filter_filter]
  exact congrArg (List.map (·.callback)) (List.filter_congr hsame)

namespace Registry

variable {r : Registry α}

/-- What is left of a registry without the bindings that are gone, as if they had never been
    registered. -/
def trim (gone : BindingId → Bool) (r : Registry α) : Registry α :=
  ⟨(r.bindings.filter (!gone ·.id)).map (·.renumber gone), rank gone r.nextId⟩

/-- A binding that is kept is there under its new id. -/
theorem renumber_mem_trim {b : Binding α} (hb : b ∈ r.bindings) (h : gone b.id = false) :
    b.renumber gone ∈ (r.trim gone).bindings :=
  List.mem_map_of_mem (List.mem_filter.mpr ⟨hb, by simp [h]⟩)

theorem trim_empty : (empty : Registry α).trim gone = empty := by
  rw [trim, empty, rank, Nat.count_zero]
  rfl

/-- A binding that is gone was not registered. -/
theorem trim_insert_gone (h : gone r.nextId = true) (source : String) (pattern : Pattern)
    (mode : Mode) (callback : α) :
    (r.insert source pattern mode callback).1.trim gone = r.trim gone := by
  rw [trim, insert, List.filter_append, List.filter_cons_of_neg (by simp [h]), List.filter_nil,
    List.append_nil, rank_succ, if_pos h, trim]

/-- A binding that is kept is registered under the next of the new ids. -/
theorem trim_insert_kept (h : gone r.nextId = false) (source : String) (pattern : Pattern)
    (mode : Mode) (callback : α) :
    (r.insert source pattern mode callback).1.trim gone =
      ((r.trim gone).insert source pattern mode callback).1 := by
  rw [trim, insert, List.filter_append, List.filter_cons_of_pos (by simp [h]), List.filter_nil,
    List.map_append, rank_succ, if_neg (by simp [h])]
  rfl

/-- A binding that is gone was not taken out. -/
theorem trim_without_gone (h : gone id = true) : (r.without id).trim gone = r.trim gone := by
  have hfilter : (r.without id).bindings.filter (!gone ·.id) = r.bindings.filter (!gone ·.id) := by
    rw [without, List.filter_filter]
    refine List.filter_congr fun b _ => ?_
    by_cases hb : b.id = id
    · simp [hb, h]
    · simp [hb]
  rw [trim, hfilter, trim]
  rfl

/-- A binding that is kept is taken out under its new id. -/
theorem trim_without_kept (h : gone id = false) :
    (r.without id).trim gone = (r.trim gone).without (rank gone id) := by
  have hfilter : (r.without id).bindings.filter (!gone ·.id) =
      (r.bindings.filter (!gone ·.id)).filter fun b => (b.renumber gone).id ≠ rank gone id := by
    rw [without, List.filter_filter, List.filter_filter]
    refine List.filter_congr fun b _ => ?_
    cases hb : gone b.id with
    | true => simp
    | false => simp [Binding.renumber, rank_inj hb h]
  have hmap : ((r.trim gone).without (rank gone id)).bindings =
      ((r.bindings.filter (!gone ·.id)).filter
        fun b => (b.renumber gone).id ≠ rank gone id).map (·.renumber gone) := List.filter_map
  rw [trim, hfilter, ← hmap]
  rfl

theorem Numbered.trim (h : r.Numbered) : (r.trim gone).Numbered := by
  intro b hb
  obtain ⟨kept, hkept, rfl⟩ := List.mem_map.mp hb
  obtain ⟨hmem, hgone⟩ := List.mem_filter.mp hkept
  exact Nat.count_strict_mono (by simpa using hgone) (h kept hmem)

/-- **What is left runs alone as it runs among the others.** -/
theorem complete_trim (r : Registry α) (gone : BindingId → Bool) (t : Tracker) (now : Instant) :
    (r.trim gone).complete t now =
      ((r.complete t now).filter (!gone ·.id)).map (·.renumber gone) := by
  calc
    (r.trim gone).complete t now =
        ((r.bindings.filter (!gone ·.id)).filter (·.fires t now)).map (·.renumber gone) :=
      List.filter_map
    _ = ((r.complete t now).filter (!gone ·.id)).map (·.renumber gone) := by
      rw [complete, List.filter_filter, List.filter_filter]
      exact congrArg _ (List.filter_congr fun b _ => Bool.and_comm _ _)

end Registry

end Trim

/-! ## 2. A run without them -/

namespace Manager

variable {m : Manager α}

/-- What is left of a manager without the bindings that are gone. -/
def trim (gone : BindingId → Bool) (m : Manager α) : Manager α :=
  { m with registry := m.registry.trim gone }

/-- What is left of an operation: a binding that is gone is neither registered nor taken out, and
    one that is kept is taken out under its new id. A text that is refused registers no binding, and
    an id that was not handed out yet belongs to none; such operations stay. -/
def kept? (gone : BindingId → Bool) (m : Manager α) (op : ManagerOp α) : Option (ManagerOp α) :=
  match op with
  | .register binding callback =>
    match (m.tryRegister binding callback).2 with
    | .ok id => if gone id then none else some op
    | .error _ => some op
  | .unregister id =>
    if id < m.registry.nextId then
      if gone id then none else some (.unregister (rank gone id))
    else some op
  | _ => some op

/-- What is left of a run. -/
def opsWithout (gone : BindingId → Bool) (m : Manager α) : List (ManagerOp α) → List (ManagerOp α)
  | [] => []
  | op :: ops => (m.kept? gone op).toList ++ (m.step op).opsWithout gone ops

theorem opsWithout_concat (gone : BindingId → Bool) (m : Manager α) (ops : List (ManagerOp α))
    (op : ManagerOp α) :
    m.opsWithout gone (ops ++ [op]) =
      m.opsWithout gone ops ++ ((m.run ops).kept? gone op).toList := by
  induction ops generalizing m with
  | nil => exact List.append_nil _
  | cons first ops ih =>
    rw [List.cons_append, opsWithout, ih, opsWithout, List.append_assoc]
    rfl

/-- Ids rise in order through every run. -/
theorem ordered_run (settings : Settings) (ops : List (ManagerOp α)) :
    ((new settings).run ops).registry.Ordered :=
  registry_run Registry.ordered_empty (fun h => h.insert) (fun h => h.without) settings ops

@[simp] theorem settings_trim (m : Manager α) (gone : BindingId → Bool) :
    (m.trim gone).settings = m.settings := rfl

@[simp] theorem tracker_trim (m : Manager α) (gone : BindingId → Bool) :
    (m.trim gone).tracker = m.tracker := rfl

theorem noteCode_trim (m : Manager α) (gone : BindingId → Bool) (event : Event) (input : Input) :
    (m.trim gone).noteCode event input = (m.noteCode event input).trim gone := by
  unfold noteCode
  split
  · rfl
  · split <;> rfl

theorem dropCode_trim (m : Manager α) (gone : BindingId → Bool) (event : Event) :
    (m.trim gone).dropCode event = (m.dropCode event).trim gone := by
  unfold dropCode
  split <;> rfl

/-- No host event looks at the bindings before the tracker has changed. -/
theorem handle_trim (m : Manager α) (gone : BindingId → Bool) (event : Event) (now : Instant) :
    ((m.trim gone).handle event now).1 = (m.handle event now).1.trim gone := by
  have hknown : (m.trim gone).knownInput? event = m.knownInput? event := rfl
  rw [handle, handle, settings_trim, hknown]
  cases event.action with
  | «repeat» => rfl
  | press =>
    cases event.input? m.settings.naming with
    | none => rfl
    | some input => exact congrArg (fun m' => (press m' input now).1) (noteCode_trim ..)
  | release =>
    cases (m.knownInput? event).or (event.input? m.settings.naming) with
    | none => exact dropCode_trim m gone event
    | some input => exact congrArg (fun m' => (release m' input now).1) (dropCode_trim ..)

/-- A text that is refused stays in the run, and is refused there. -/
theorem register_trim_refused {binding : String} {e : BindingError}
    (h : Pattern.ofBinding m.settings.naming binding = .error e) (gone : BindingId → Bool)
    (callback : α) :
    (m.trim gone).run (m.kept? gone (.register binding callback)).toList =
      (m.register binding callback).1.trim gone := by
  have hrefused : m.tryRegister binding callback = (m, .error e) := by rw [tryRegister, h]
  have hrefused' : (m.trim gone).tryRegister binding callback = (m.trim gone, .error e) := by
    rw [tryRegister, settings_trim, h]
  have hkept : m.kept? gone (.register binding callback) = some (.register binding callback) := by
    rw [kept?, hrefused]
  have hleft : (m.register binding callback).1 = m := by rw [register, hrefused]
  have hleft' : ((m.trim gone).register binding callback).1 = m.trim gone := by
    rw [register, hrefused']
  rw [hkept, hleft]
  exact hleft'

/-- A binding that is gone is not registered, and one that is kept is registered as before. -/
theorem register_trim_accepted {binding : String} {pattern : Pattern} {mode : Mode}
    (h : Pattern.ofBinding m.settings.naming binding = .ok (pattern, mode))
    (gone : BindingId → Bool) (callback : α) :
    (m.trim gone).run (m.kept? gone (.register binding callback)).toList =
      (m.register binding callback).1.trim gone := by
  have hok : ∀ m' : Manager α, m'.settings = m.settings → m'.tryRegister binding callback =
      ({ m' with registry := (m'.registry.insert binding pattern mode callback).1 },
        .ok m'.registry.nextId) := fun m' hs =>
    tryRegister_eq_ok_iff.mpr ⟨pattern, mode, hs ▸ h, rfl, rfl⟩
  have hkept : m.kept? gone (.register binding callback) =
      if gone m.registry.nextId then none else some (.register binding callback) := by
    rw [kept?, hok m rfl]
  have hleft : (m.register binding callback).1.trim gone = { m with
      registry := (m.registry.insert binding pattern mode callback).1.trim gone } := by
    rw [register, hok m rfl]
    rfl
  rw [hkept, hleft]
  cases hgone : gone m.registry.nextId with
  | true =>
    rw [Registry.trim_insert_gone hgone]
    rfl
  | false =>
    show ((m.trim gone).register binding callback).1 = _
    rw [register, hok (m.trim gone) rfl, Registry.trim_insert_kept hgone]
    rfl

/-- A binding that is gone is not taken out, and one that is kept is, under its new id. -/
theorem unregister_trim (h : m.registry.Numbered) (gone : BindingId → Bool) (id : BindingId) :
    (m.trim gone).run (m.kept? gone (.unregister id)).toList = (m.unregister id).1.trim gone := by
  show _ = { m with registry := (m.registry.without id).trim gone }
  rw [kept?]
  split
  · cases hgone : gone id with
    | true =>
      rw [Registry.trim_without_gone hgone]
      rfl
    | false =>
      rw [Registry.trim_without_kept hgone]
      rfl
  · next hunknown =>
    -- neither registry knows the id
    have hid : m.registry.nextId ≤ id := Nat.le_of_not_lt hunknown
    have hid' : (m.registry.trim gone).nextId ≤ id := le_trans (Nat.count_le _) hid
    show { m with registry := (m.registry.trim gone).without id } = _
    rw [h.without_eq_self hid, h.trim.without_eq_self hid']

/-- **What is left of an operation does to what is left of a manager what the operation does.** -/
theorem trim_step (h : m.registry.Numbered) (gone : BindingId → Bool) (op : ManagerOp α) :
    (m.trim gone).run (m.kept? gone op).toList = (m.step op).trim gone := by
  cases op with
  | register binding callback =>
    cases haccepted : Pattern.ofBinding m.settings.naming binding with
    | error e => exact register_trim_refused haccepted gone callback
    | ok accepted => exact register_trim_accepted haccepted gone callback
  | unregister id => exact unregister_trim h gone id
  | press input now => rfl
  | release input now => rfl
  | clear => rfl
  | handle event now => exact handle_trim m gone event now

/-- **What is left of a run leads to what is left of its manager.** -/
theorem trim_run (settings : Settings) (gone : BindingId → Bool) (ops : List (ManagerOp α)) :
    (new settings).run ((new settings).opsWithout gone ops) =
      ((new settings).run ops).trim gone := by
  induction ops using List.reverseRecOn with
  | nil =>
    show new settings = { (new settings : Manager α) with registry := Registry.empty.trim gone }
    rw [Registry.trim_empty]
    rfl
  | append_singleton ops op ih =>
    rw [opsWithout_concat, run_append, ih, run_concat]
    exact trim_step (numbered_run settings ops) gone op

/-- What is left of a manager runs, on the same operation, those of the bindings that are left. -/
theorem firing_trim (m : Manager α) (gone : BindingId → Bool) (op : ManagerOp α) :
    (m.trim gone).firing op = ((m.firing op).filter (!gone ·.id)).map (·.renumber gone) := by
  have htold : (m.trim gone).trackerOp? op = m.trackerOp? op := by cases op <;> rfl
  have htracker : ((m.trim gone).step op).tracker = (m.step op).tracker := by
    rw [tracker_step, tracker_step, htold, tracker_trim]
  rw [firing, firing, firesAt?, firesAt?, htold, htracker]
  cases (m.trackerOp? op).bind TrackerOp.instant? with
  | none => rfl
  | some now => exact m.registry.complete_trim gone _ now

/-- **At each step, what is left of a run runs those of the bindings that are left**, in the order
    of before. -/
theorem fired_kept? (m : Manager α) (gone : BindingId → Bool) (op : ManagerOp α) :
    (m.kept? gone op).elim .nothing (m.trim gone).fired =
      .ofBindings (((m.firing op).filter (!gone ·.id)).map (·.renumber gone)) := by
  have hsame : (m.trim gone).fired op =
      .ofBindings (((m.firing op).filter (!gone ·.id)).map (·.renumber gone)) := by
    rw [fired_eq, firing_trim]
  cases op with
  | register binding callback =>
    -- registering runs nothing, left out or not
    rw [kept?]
    split
    · split <;> rfl
    · rfl
  | unregister id =>
    rw [kept?]
    split
    · split <;> rfl
    · rfl
  | press input now => exact hsame
  | release input now => exact hsame
  | clear => exact hsame
  | handle event now => exact hsame

/-! ## 3. What does not change -/

/-- No operation both makes a transition and changes the bindings. -/
theorem registry_step_of_firesAt? {op : ManagerOp α} {now : Instant}
    (h : m.firesAt? op = some now) : (m.step op).registry = m.registry := by
  cases op with
  | register binding callback => exact absurd h nofun
  | unregister id => exact absurd h nofun
  | press input now => rfl
  | release input now => rfl
  | clear => rfl
  | handle event now => exact registry_handle m event now

/-- The ids of what an operation runs are those that match after it. -/
theorem ids_fired (m : Manager α) (op : ManagerOp α) :
    (m.fired op).ids =
      (m.firesAt? op).elim [] ((m.step op).registry.matching (m.step op).tracker) := by
  rw [fired_eq, firing]
  cases h : m.firesAt? op with
  | none => rfl
  | some now =>
    rw [registry_step_of_firesAt? h]
    rfl

/-- What an operation runs is a part of the bindings, in their order. -/
theorem firing_sublist (m : Manager α) (op : ManagerOp α) :
    (m.firing op).Sublist m.registry.bindings := by
  rw [firing]
  cases m.firesAt? op with
  | none => exact List.nil_sublist _
  | some now => exact List.filter_sublist

/-- The ids that are noted are a part of those that are registered, in their order. -/
theorem ids_fired_sublist (m : Manager α) (op : ManagerOp α) :
    (m.fired op).ids.Sublist m.registry.ids := by
  rw [fired_eq]
  exact (m.firing_sublist op).map _

/-- **The callbacks that are called are those under the ids that are noted**, in that order. -/
theorem called_fired (h : m.registry.Ordered) (op : ManagerOp α) :
    (m.fired op).called.map some =
      (m.fired op).ids.map fun id => (m.registry.find? id).map (·.callback) := by
  have hfound : ∀ b ∈ m.firing op,
      some b.callback = (m.registry.find? b.id).map (·.callback) := by
    intro b hb
    rw [h.find?_id ((m.firing_sublist op).subset hb), Option.map_some]
  rw [fired_eq, Fired.ofBindings, List.map_map, List.map_map]
  exact List.map_congr_left hfound

end Manager

open Manager in
/-- **Bindings do not interfere.** In every run, each operation that makes a transition runs what
    matches the tracker after it: in the order of ids, and with each id the callback under it once;
    nothing else runs anything. Leave any bindings out of the run, and after the same steps the
    tracker is the same; what runs is what ran before without those bindings; and so each binding
    that is not left out, found under its new id, runs its callback at the same steps. -/
theorem bindings_do_not_interfere (settings : Settings) (ops : List (ManagerOp α))
    (op : ManagerOp α) :
    let m := (new settings).run ops
    let after := m.step op
    let fired := m.fired op
    fired.ids = (m.firesAt? op).elim [] (after.registry.matching after.tracker) ∧
      fired.ids.Pairwise (· < ·) ∧
      fired.called.map some =
        fired.ids.map (fun id => (m.registry.find? id).map (·.callback)) ∧
      ∀ gone : BindingId → Bool,
        let left := (new settings).opsWithout gone
        let m' := (new settings).run (left ops)
        let ran := (m.kept? gone op).elim .nothing m'.fired
        left (ops ++ [op]) = left ops ++ (m.kept? gone op).toList ∧
          m'.tracker = m.tracker ∧
          ((new settings).run (left (ops ++ [op]))).tracker = after.tracker ∧
          ran.ids = (fired.ids.filter (!gone ·)).map (rank gone) ∧
          ran.called = ((fired.ids.zip fired.called).filter (!gone ·.1)).map (·.2) ∧
          ∀ b ∈ m.registry.bindings, gone b.id = false →
            m'.registry.find? (rank gone b.id) = some (b.renumber gone) ∧
              (rank gone b.id ∈ ran.ids ↔ b.id ∈ fired.ids) ∧
              ran.callsOf (rank gone b.id) = fired.callsOf b.id := by
  intro m after fired
  have hordered : m.registry.Ordered := ordered_run settings ops
  have hfired : fired = .ofBindings (m.firing op) := m.fired_eq op
  refine ⟨m.ids_fired op, hordered.rising.sublist (m.ids_fired_sublist op),
    called_fired hordered op, ?_⟩
  intro gone left m' ran
  have hm' : m' = m.trim gone := trim_run settings gone ops
  have hran : ran = .ofBindings (((m.firing op).filter (!gone ·.id)).map (·.renumber gone)) := by
    show (m.kept? gone op).elim .nothing m'.fired = _
    rw [hm', fired_kept?]
  have hids : ran.ids = (fired.ids.filter (!gone ·)).map (rank gone) := by
    rw [hran, hfired]
    exact Fired.ids_renumber gone _
  have hcalled : ran.called = ((fired.ids.zip fired.called).filter (!gone ·.1)).map (·.2) := by
    rw [hran, hfired]
    exact Fired.called_renumber gone _
  refine ⟨opsWithout_concat gone (new settings) ops op, ?_, ?_, hids, hcalled,
    fun b hb hgone => ⟨?_, ?_, ?_⟩⟩
  · rw [hm', tracker_trim]
  · rw [trim_run, tracker_trim, run_concat]
  · have hmem : b.renumber gone ∈ m'.registry.bindings := by
      rw [hm']
      exact Registry.renumber_mem_trim hb hgone
    exact (ordered_run settings (left ops)).find?_id hmem
  · rw [hids]
    exact mem_map_rank_iff hgone
  · rw [hran, hfired]
    exact Fired.callsOf_renumber hgone _

/-- The first two of four bindings are left out, one of them taken out on the way. The other two get
    new ids, and the one that is taken out last is taken out under its new id; then one press runs
    the same callbacks as before, less the first. -/
theorem kept_bindings_run_alike :
    let ops : List (ManagerOp Nat) := [.register "KeyA" 10, .register "KeyA" 20,
      .register "KeyA" 30, .unregister 1, .register "KeyA + KeyB" 40, .unregister 3,
      .register "KeyA" 50]
    let gone : BindingId → Bool := fun id => id < 2
    let left := (Manager.new .default).opsWithout gone ops
    left = [.register "KeyA" 30, .register "KeyA + KeyB" 40, .unregister 1, .register "KeyA" 50] ∧
      ((Manager.new .default).run ops).fired (.press "KeyA" 0) = ⟨[10, 30, 50], [0, 2, 4]⟩ ∧
      (((Manager.new .default).run left).fired (.press "KeyA" 0)).ids = [0, 2] ∧
      (((Manager.new .default).run left).fired (.press "KeyA" 0)).called = [30, 50] := by
  intro ops gone left
  obtain ⟨-, -, -, hids, hcalled, -⟩ :=
    (bindings_do_not_interfere .default ops (.press "KeyA" 0)).2.2.2 gone
  -- a press is left as it is
  have hran : (((Manager.new .default).run ops).kept? gone (.press "KeyA" 0)).elim .nothing
      ((Manager.new .default).run left).fired =
        ((Manager.new .default).run left).fired (.press "KeyA" 0) := rfl
  exact ⟨rfl, rfl, (congrArg Fired.ids hran).symm.trans (hids.trans rfl),
    (congrArg Fired.called hran).symm.trans (hcalled.trans rfl)⟩

end KeyBindings
