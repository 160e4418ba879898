import KeyBindings.Proofs.Moments

/-!
# What the moments of a trimmed log show

Moments are replayed from the LOG, and the log begins in the middle of the history: whatever is down
there is unknown to the replay until it is pressed again. So a group is less than what was held.

* `isDown_iff_of_dropped` -- replaying the newer part of a history shows what is really down AND has
  a transition in that part;
* `Moment.Sees` -- what a moment shows of the complete history;
* **`moments_of_trimmed_log`**: the moments of every run, and the pattern made of them;
* **`moments_show_held_iff`**: the groups are what was held exactly when each input that was down
  where the log begins has a transition in the log no later than its first press. A modifier that
  stays down while the log moves on is lost (`held_modifier_not_shown`).
-/

namespace KeyBindings

namespace History

/-! ## 1. The newer part of a history -/

/-- **A part of the history knows of those inputs that are really down which it mentions.** -/
theorem isDown_iff_of_dropped {older upTo : History} {input : Input} :
    upTo.isDown input = true ↔
      isDown (older ++ upTo) input = true ∧ input ∈ upTo.map (·.input) := by
  constructor
  · exact fun h => ⟨isDown_append h, mem_inputs_of_isDown h⟩
  · rintro ⟨hdown, hmem⟩
    rwa [isDown_append_of_mem hmem] at hdown

/-- A part of the history shows all that is down exactly when it mentions all that was down before
    it. -/
theorem shows_all_iff {older upTo : History} :
    (∀ input, upTo.isDown input = true ↔ isDown (older ++ upTo) input = true) ↔
      ∀ input, older.isDown input = true → input ∈ upTo.map (·.input) := by
  constructor
  · intro hall input hdown
    refine Decidable.byContradiction fun hnot => hnot ?_
    have hskip : isDown (older ++ upTo) input = older.isDown input := isDown_append_of_notMem hnot
    rw [← hskip, ← hall input] at hdown
    exact mem_inputs_of_isDown hdown
  · intro hmentioned input
    refine ⟨isDown_append, fun hdown => isDown_iff_of_dropped.mpr ⟨hdown, ?_⟩⟩
    refine Decidable.byContradiction fun hnot => hnot (hmentioned input ?_)
    rwa [isDown_append_of_notMem hnot] at hdown

theorem prefix_of_mem_atPresses {past upTo : History} (h : upTo ∈ past.atPresses) :
    upTo <+: past :=
  (List.mem_inits _ _).mp (List.mem_of_mem_filter h)

/-- Of the histories at two presses the earlier one begins the later one. -/
theorem pairwise_prefix_atPresses (past : History) : past.atPresses.Pairwise (· <+: ·) := by
  induction past using List.reverseRecOn with
  | nil => exact List.Pairwise.nil
  | append_singleton past entry ih =>
    rw [atPresses_concat]
    split
    · refine List.pairwise_append.mpr ⟨ih, List.pairwise_singleton _ _, fun upTo hu last hl => ?_⟩
      rw [List.mem_singleton.mp hl]
      exact (prefix_of_mem_atPresses hu).trans (List.prefix_append _ _)
    · rwa [List.append_nil]

/-- What the history at the first press mentions, the history at every press does. -/
theorem mentions_of_first {past upTo : History} {input : Input}
    (h : ∀ first ∈ past.atPresses.head?, input ∈ first.map (·.input))
    (hu : upTo ∈ past.atPresses) : input ∈ upTo.map (·.input) := by
  have hpre := pairwise_prefix_atPresses past
  cases hp : past.atPresses with
  | nil => exact absurd (hp ▸ hu) List.not_mem_nil
  | cons first rest =>
    rw [hp] at h hpre hu
    have hfirst : input ∈ first.map (·.input) := h first rfl
    rcases List.mem_cons.mp hu with rfl | hrest
    · exact hfirst
    · have hbegins : first <+: upTo := List.rel_of_pairwise_cons hpre hrest
      exact (hbegins.map _).subset hfirst

end History

namespace Moment

/-! ## 2. What a moment sees -/

/-- One moment for each press, in order, opened by its input. -/
theorem map_fresh_ofLog (down : Chord) (entries : History) :
    (ofLog down entries).map (·.fresh) = (entries.filter (·.pressed)).map (·.input) := by
  induction entries generalizing down with
  | nil => rfl
  | cons entry entries ih =>
    rw [ofLog, List.filter_cons]
    split
    · rw [List.map_cons, List.map_cons, ih]
    · rw [ih]

/-- What a moment says of the history, where `older` has been dropped and `upTo` is what the log
    keeps up to the press: the press opened it, and its group has those inputs that are REALLY down
    and have a transition that is kept. -/
structure Sees (older : History) (m : Moment) (upTo : History) : Prop where
  fresh : ∃ entry ∈ upTo.getLast?, entry.input = m.fresh
  fresh_mem_group : m.fresh ∈ m.group.members
  nodup_group : m.group.members.Nodup
  mem_group_iff : ∀ input, input ∈ m.group.members ↔
    History.isDown (older ++ upTo) input = true ∧ input ∈ upTo.map (·.input)

/-- A moment that stands for a press of the log sees the real history, whatever was dropped. -/
theorem Shows.sees {m : Moment} {upTo : History} (h : m.Shows upTo)
    (hfresh : m.fresh ∈ m.group.members) (older : History) : Sees older m upTo where
  fresh := h.1
  fresh_mem_group := hfresh
  nodup_group := m.group.nodup
  mem_group_iff input := by rw [h.2, History.mem_down_iff, History.isDown_iff_of_dropped]

end Moment

/-! ## 3. The moments of a run -/

/-- The moments of a log that has been trimmed see the real history, place by place. -/
theorem forall₂_sees_moments (t : Tracker) (older : History) :
    List.Forall₂ (Moment.Sees older) t.moments (History.atPresses t.log) := by
  have hfresh : ∀ m ∈ t.moments, m.fresh ∈ m.group.members := fun m hm =>
    Moment.fresh_mem_group hm
  have hboth := (List.forall₂_and_left _ _).mpr ⟨hfresh, Moment.forall₂_ofLog_atPresses t.log⟩
  exact hboth.imp fun m upTo h => h.2.sees h.1 older

/-- **The moments of a run.** There is one for each press that the log keeps, in order. Its group
    has the inputs that are really down just after the press -- by the complete history since the
    last clear -- and have a transition that the log keeps, at the press or before it. The pattern
    of the tracker has these groups, none dropped, and the pattern of its newest moments the last
    ones. -/
theorem moments_of_trimmed_log (limits : Limits) (ops : List TrackerOp) :
    let t := (Tracker.new limits).run ops
    ∃ older : History, older ++ t.log = History.ofOps ops ∧
      t.moments.map (·.fresh) = (t.log.filter (·.pressed)).map (·.input) ∧
      List.Forall₂ (Moment.Sees older) t.moments (History.atPresses t.log) ∧
      (t.toPattern none).chords = t.moments.map (·.group) ∧
      ∀ n, (t.toPattern (some n)).chords <:+ t.moments.map (·.group) ∧
        (t.toPattern (some n)).size = min n (t.log.countP (·.pressed)) := by
  intro t
  obtain ⟨older, ho⟩ := (Tracker.follows_run limits ops).log_suffix
  refine ⟨older, ho, Moment.map_fresh_ofLog .empty t.log, forall₂_sees_moments t older,
    t.chords_toPattern_none, fun n => ?_⟩
  have hlast : (t.toPattern (some n)).chords = Sequence.keepLast n (t.moments.map (·.group)) :=
    congrArg (Sequence.keepLast n) t.chords_toPattern_none
  have hcount : t.moments.length = t.log.countP (·.pressed) := Moment.length_ofLog .empty t.log
  refine ⟨hlast ▸ Sequence.keepLast_suffix n _, ?_⟩
  rw [Pattern.size, hlast, Sequence.length_keepLast, List.length_map, hcount]

/-! ## 4. Moments and what was held -/

/-- Whether each moment of a tracker that was fed some transitions has, as a set, what was held just
    after the press that opened it. The presses are the newest ones, one for each moment. -/
def MomentsShowHeld (limits : Limits) (entries : History) : Prop :=
  let t := (Tracker.new limits).run (entries.map Transition.op)
  List.Forall₂ (fun m upTo =>
      m.group.same ((Tracker.new limits).run (upTo.map Transition.op)).held = true)
    t.moments (Sequence.keepLast t.moments.length entries.atPresses)

instance (limits : Limits) (entries : History) : Decidable (MomentsShowHeld limits entries) :=
  inferInstanceAs (Decidable (List.Forall₂ _ _ _))

/-- What a tracker holds that was fed some transitions is what is down. -/
theorem mem_held_run_map_op {limits : Limits} {entries : History} {input : Input} :
    input ∈ ((Tracker.new limits).run (entries.map Transition.op)).held.members ↔
      entries.isDown input = true := by
  rw [(Tracker.follows_run limits _).held, History.ofOps_map_op, History.mem_down_iff]

/-- Moments show what was held exactly when the log, at each of its presses, mentions all that was
    down where it begins. -/
theorem momentsShowHeld_iff_mentions {limits : Limits} {entries older : History}
    (ho : older ++ ((Tracker.new limits).run (entries.map Transition.op)).log = entries) :
    MomentsShowHeld limits entries ↔
      ∀ upTo ∈ History.atPresses ((Tracker.new limits).run (entries.map Transition.op)).log,
        ∀ input, older.isDown input = true → input ∈ upTo.map (·.input) := by
  unfold MomentsShowHeld
  generalize (Tracker.new limits).run (entries.map Transition.op) = t at ho ⊢
  have hshow : List.Forall₂ Moment.Shows t.moments (History.atPresses t.log) :=
    Moment.forall₂_ofLog_atPresses t.log
  have hlen : t.moments.length = ((History.atPresses t.log).map (older ++ ·)).length := by
    rw [List.length_map, hshow.length_eq]
  -- the newest presses of the run are those of the log, with what was dropped in front
  have hpresses : Sequence.keepLast t.moments.length entries.atPresses =
      (History.atPresses t.log).map (older ++ ·) := by
    rw [← ho, History.atPresses_append, hlen,
      Sequence.keepLast_append_of_le_length _ (Nat.le_refl _),
      Sequence.keepLast_of_length_le (Nat.le_refl _)]
  show List.Forall₂ _ t.moments (Sequence.keepLast t.moments.length entries.atPresses) ↔ _
  rw [hpresses, List.forall₂_map_right_iff]
  have hsame : ∀ (m : Moment) (shown upTo : History), m.Shows shown →
      (m.group.same
          ((Tracker.new limits).run ((older ++ upTo).map Transition.op)).held = true ↔
        ∀ input, shown.isDown input = true ↔ History.isDown (older ++ upTo) input = true) := by
    intro m shown upTo hm
    rw [Chord.same_iff, hm.2]
    exact forall_congr' fun input => iff_congr History.mem_down_iff mem_held_run_map_op
  rw [Sequence.forall₂_congr_left hshow hsame, List.forall₂_same]
  exact forall₂_congr fun upTo _ => History.shows_all_iff

/-- **What moments show of what was held.** A moment's group has the inputs that were held just
    after its press and have a transition that the log keeps, at the press or before it. All groups
    are ALL that was held exactly when each input that was down where the log begins has a
    transition in the log no later than its first press; so always while nothing was dropped. -/
theorem moments_show_held_iff (limits : Limits) (entries : History) :
    let t := (Tracker.new limits).run (entries.map Transition.op)
    ∃ older : History, older ++ t.log = entries ∧
      List.Forall₂ (fun m upTo => ∀ input, input ∈ m.group.members ↔
        input ∈ ((Tracker.new limits).run ((older ++ upTo).map Transition.op)).held.members ∧
          input ∈ upTo.map (·.input)) t.moments (History.atPresses t.log) ∧
      (MomentsShowHeld limits entries ↔ ∀ input, older.isDown input = true →
        ∀ first ∈ (History.atPresses t.log).head?, input ∈ first.map (·.input)) := by
  intro t
  have hsuffix := (Tracker.follows_run limits (entries.map Transition.op)).log_suffix
  rw [History.ofOps_map_op] at hsuffix
  obtain ⟨older, ho⟩ := hsuffix
  refine ⟨older, ho, ?_, ?_⟩
  · refine (forall₂_sees_moments t older).imp fun m upTo h input => ?_
    rw [h.mem_group_iff, mem_held_run_map_op]
  · rw [momentsShowHeld_iff_mentions ho]
    constructor
    · intro hall input hdown first hf
      exact hall first (List.mem_of_mem_head? hf) input hdown
    · intro hfirst upTo hu input hdown
      exact History.mentions_of_first (hfirst input hdown) hu

/-- **A modifier that stays down is lost once its press has left the log**: Shift is held
    throughout, the log keeps three transitions, and no group has Shift. -/
theorem held_modifier_not_shown :
    ¬ ∀ (limits : Limits) (entries : History), MomentsShowHeld limits entries := by
  intro hall
  have hshift := hall (.ofNumbers 500 3 5)
    [⟨"ShiftLeft", true, 0⟩, ⟨"KeyE", true, 10⟩, ⟨"KeyE", false, 20⟩, ⟨"KeyD", true, 30⟩]
  exact absurd hshift (by decide)

end KeyBindings
