import KeyBindings.Proofs.History

/-!
# The transitions that still stand

A release ends what went before it for its input. A transition STANDS as long as its input has not
been released after it, and two orders can be read off the transitions that stand:

* `latestReleases` -- the releases among them: the latest release of each input, in the order of
  these releases;
* `holdOrder` -- the inputs of the presses among them, each at its first: the press that began the
  hold that lasts. A press of a held input stands too, but does not move the input.

**`standing_concat`** says what one more transition makes of them; **`members_down`**: what is down
after a replay stands in the order in which the holds began.
-/

namespace KeyBindings

namespace Sequence

variable {α : Type} [DecidableEq α]

/-! ## 1. First occurrences -/

/-- One more item is a first occurrence, unless it has occurred. -/
theorem eraseDups_concat (items : List α) (a : α) :
    (items ++ [a]).eraseDups =
      if a ∈ items then items.eraseDups else items.eraseDups ++ [a] := by
  have hone : [a].eraseDups = [a] := by rw [List.eraseDups_cons, List.filter_nil, List.eraseDups_nil]
  rw [List.eraseDups_append, List.cons_removeAll, List.nil_removeAll]
  by_cases h : a ∈ items <;> simp [h, hone]

/-- Taking an item out before or after the repetitions is the same. -/
theorem eraseDups_filter_ne (items : List α) (a : α) :
    (items.filter (· ≠ a)).eraseDups = items.eraseDups.filter (· ≠ a) := by
  induction items using List.reverseRecOn with
  | nil => rfl
  | append_singleton items b ih =>
    rw [List.filter_append, eraseDups_concat]
    by_cases hb : b = a
    · subst hb
      have hnone : [b].filter (· ≠ b) = [] := by simp
      rw [hnone, List.append_nil, ih]
      split
      · rfl
      · rw [List.filter_append, hnone, List.append_nil]
    · have hone : [b].filter (· ≠ a) = [b] := by simp [hb]
      have hmem : b ∈ items.filter (· ≠ a) ↔ b ∈ items := by simp [hb]
      rw [hone, eraseDups_concat, ih]
      by_cases hi : b ∈ items
      · rw [if_pos hi, if_pos (hmem.mpr hi)]
      · rw [if_neg hi, if_neg (hi ∘ hmem.mp), List.filter_append, hone]

end Sequence

/-- **A chord of a list has the first occurrences, in order.** -/
theorem Chord.members_ofList (inputs : List Input) :
    (Chord.ofList inputs).members = inputs.eraseDups := by
  induction inputs using List.reverseRecOn with
  | nil => rfl
  | append_singleton inputs input ih =>
    have hconcat : Chord.ofList (inputs ++ [input]) = (Chord.ofList inputs).insert input :=
      List.foldl_append
    rw [hconcat, Chord.members_insert, Sequence.eraseDups_concat, ih]
    simp only [List.mem_eraseDups]

namespace History

/-! ## 2. Standing -/

/-- Whether some transitions do not release an input. -/
def Spare (newer : History) (input : Input) : Prop :=
  ∀ later ∈ newer, later.input = input → later.pressed = true

instance (newer : History) (input : Input) : Decidable (newer.Spare input) :=
  inferInstanceAs (Decidable (∀ later ∈ newer, _))

theorem spare_concat_iff {newer : History} {entry : Transition} {input : Input} :
    Spare (newer ++ [entry]) input ↔
      newer.Spare input ∧ (entry.input = input → entry.pressed = true) := by
  rw [Spare, List.forall_mem_append, List.forall_mem_singleton, Spare]

/-- The transitions after which their input has not been released, oldest first. -/
def standing : History → History
  | [] => []
  | entry :: newer =>
    if Spare newer entry.input then entry :: standing newer else standing newer

/-- **A new transition stands, and a release ends all that stood for its input.** -/
theorem standing_concat (past : History) (entry : Transition) :
    standing (past ++ [entry]) =
      (if entry.pressed then past.standing else past.standing.filter (·.input ≠ entry.input)) ++
        [entry] := by
  induction past with
  | nil => simp [standing, Spare]
  | cons first past ih =>
    rw [List.cons_append, standing, standing, ih]
    cases hp : entry.pressed with
    | true =>
      have hsame : Spare (past ++ [entry]) first.input ↔ Spare past first.input := by
        rw [spare_concat_iff, hp]
        exact and_iff_left fun _ => rfl
      simp only [hsame, if_true]
      split <;> rfl
    | false =>
      have hends : Spare (past ++ [entry]) first.input ↔
          Spare past first.input ∧ first.input ≠ entry.input := by
        rw [spare_concat_iff, hp, ne_comm]
        exact and_congr_right fun _ => ⟨fun h e => Bool.noConfusion (h e), fun h e => absurd e h⟩
      simp only [hends, Bool.false_eq_true, if_false]
      by_cases hx : first.input = entry.input
      · rw [if_neg fun h => h.2 hx]
        split <;> simp [hx]
      · simp only [ne_eq, hx, not_false_eq_true, and_true]
        split <;> simp [hx]

/-! ## 3. The latest releases -/

/-- The latest release of each input, in the order of these releases. -/
def latestReleases (past : History) : History := past.standing.filter (!·.pressed)

/-- **A release is the latest one**, in place of an earlier one of its input. -/
theorem latestReleases_concat (past : History) (entry : Transition) :
    latestReleases (past ++ [entry]) =
      if entry.pressed then past.latestReleases
      else past.latestReleases.filter (·.input ≠ entry.input) ++ [entry] := by
  rw [latestReleases, standing_concat, List.filter_append]
  cases hp : entry.pressed with
  | true => simp [hp, latestReleases]
  | false =>
    simp only [Bool.false_eq_true, if_false, latestReleases, List.filter_filter]
    congr 1
    · exact List.filter_congr fun e _ => Bool.and_comm _ _
    · simp [hp]

/-- No input has two latest releases. -/
theorem nodup_map_input_latestReleases (past : History) :
    (past.latestReleases.map (·.input)).Nodup := by
  induction past using List.reverseRecOn with
  | nil => exact List.nodup_nil
  | append_singleton past entry ih =>
    rw [latestReleases_concat]
    split
    · exact ih
    · rw [List.map_append, List.nodup_append]
      refine ⟨ih.sublist (List.filter_sublist.map _), List.nodup_singleton _, ?_⟩
      intro input hi other ho
      obtain ⟨e, he, rfl⟩ := List.mem_map.mp hi
      rw [List.mem_singleton.mp ho]
      exact of_decide_eq_true (List.mem_filter.mp he).2

/-! ## 4. The order of holds -/

/-- The inputs that are down, in the order in which their holds began. -/
def holdOrder (past : History) : List Input :=
  ((past.standing.filter (·.pressed)).map (·.input)).eraseDups

/-- A press adds its input at the end, unless it is held. -/
theorem holdOrder_concat_press (past : History) {entry : Transition} (hp : entry.pressed = true) :
    holdOrder (past ++ [entry]) =
      if entry.input ∈ past.holdOrder then past.holdOrder else past.holdOrder ++ [entry.input] := by
  rw [holdOrder, standing_concat, if_pos hp, List.filter_append, List.map_append]
  have hone : ([entry].filter (·.pressed)).map (·.input) = [entry.input] := by simp [hp]
  rw [hone, Sequence.eraseDups_concat, holdOrder]
  simp only [List.mem_eraseDups]

/-- A release takes its input out. -/
theorem holdOrder_concat_release (past : History) {entry : Transition}
    (hp : entry.pressed = false) :
    holdOrder (past ++ [entry]) = past.holdOrder.filter (· ≠ entry.input) := by
  have hnone : [entry].filter (·.pressed) = [] := by simp [hp]
  have hothers : ((past.standing.filter (·.input ≠ entry.input)).filter (·.pressed)).map
      (·.input) = ((past.standing.filter (·.pressed)).map (·.input)).filter (· ≠ entry.input) := by
    rw [List.filter_map, List.filter_filter, List.filter_filter]
    exact congrArg _ (List.filter_congr fun e _ => Bool.and_comm _ _)
  rw [holdOrder, standing_concat, hp, if_neg Bool.false_ne_true, List.filter_append, hnone,
    List.append_nil, hothers, Sequence.eraseDups_filter_ne, holdOrder]

/-- **What is down after a replay stands in the order in which the holds began.** -/
theorem members_down (past : History) : past.down.members = past.holdOrder := by
  induction past using List.reverseRecOn with
  | nil => rfl
  | append_singleton past entry ih =>
    rw [down_concat, follow]
    cases hp : entry.pressed with
    | true => rw [if_pos rfl, Chord.members_insert, ih, holdOrder_concat_press past hp]
    | false =>
      rw [if_neg Bool.false_ne_true, Chord.members_erase, (down past).nodup.erase_eq_filter, ih,
        holdOrder_concat_release past hp]
      exact List.filter_congr fun input _ => by rw [bne, beq_eq_decide, decide_not]

/-- An input has its place in the order exactly when its latest transition is a press. -/
theorem mem_holdOrder_iff {past : History} {input : Input} :
    input ∈ past.holdOrder ↔ past.isDown input = true := by
  rw [← members_down, mem_down_iff]

end History

/-- **After one more transition, what a tracker holds stands in the order of its holds.** -/
theorem Tracker.Follows.members_held_step {t : Tracker} {past : History} (h : t.Follows past)
    (entry : Transition) : (t.step entry.op).held.members = (past ++ [entry]).holdOrder := by
  rw [(Tracker.follows_step h entry.op).held, History.extend_op, History.members_down]

end KeyBindings
