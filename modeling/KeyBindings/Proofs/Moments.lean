import KeyBindings.Matching
import KeyBindings.Proofs.History
import Mathlib.Data.List.Forall2

/-!
# Moments of a log, and what matching asks of them

Matching compares chords with the moments of the LOG. A moment is a press of the log with the chord
that is down after replaying the log up to it, so moments can be read off the log's own history:

* `History.atPresses` -- the history as it stood just after each of its presses;
* `forall₂_ofLog_atPresses` -- the moments of a log are these, place by place;
* `carried_ofLog` -- what a moment's group has beyond the fresh input was down at the moment before.
  So the third test of `Matching.chordMatches` never fails on the moments of a log;
* **`sequential_iff_completesEach`**: sequential matching asks that each of the last presses brings
  an input of its chord, with the whole chord down;
* **`CompletesEach.append`**: what the newest part of a history completes, the whole completes;
* **`carried_test_redundant`**: the moments of a tracker follow one another so that the third test
  can be left out.
-/

namespace KeyBindings

namespace Sequence

variable {α β γ : Type} {R : α → β → Prop}

theorem forall₂_keepLast {as : List α} {bs : List β} (n : Nat) (h : List.Forall₂ R as bs) :
    List.Forall₂ R (keepLast n as) (keepLast n bs) := by
  rw [keepLast, keepLast, h.length_eq]
  exact List.forall₂_drop _ h

theorem exists_of_forall₂ {as : List α} {bs : List β} (h : List.Forall₂ R as bs) {a : α}
    (ha : a ∈ as) : ∃ b ∈ bs, R a b := by
  induction h with
  | nil => exact absurd ha List.not_mem_nil
  | cons hab _ ih =>
    rcases List.mem_cons.mp ha with rfl | ha
    · exact ⟨_, List.mem_cons_self, hab⟩
    · obtain ⟨b, hb, hR⟩ := ih ha
      exact ⟨b, List.mem_cons_of_mem _ hb, hR⟩

/-- Of two lists that stand for each other place by place, one may replace the other. -/
theorem forall₂_congr_left {S : α → γ → Prop} {T : β → γ → Prop} {as : List α} {bs : List β}
    (h : List.Forall₂ R as bs) (hST : ∀ a b c, R a b → (S a c ↔ T b c)) {cs : List γ} :
    List.Forall₂ S as cs ↔ List.Forall₂ T bs cs := by
  induction h generalizing cs with
  | nil => cases cs <;> simp
  | cons hab _ ih =>
    cases cs with
    | nil => simp
    | cons c cs => rw [List.forall₂_cons, List.forall₂_cons, hST _ _ _ hab, ih]

end Sequence

namespace History

/-! ## 1. The history just after each press -/

/-- Whether the newest transition is a press. -/
def endsInPress (past : History) : Bool := past.getLast?.any (·.pressed)

/-- The history as it stood just after each of its presses, oldest first. -/
def atPresses (past : History) : List History := past.inits.filter endsInPress

@[simp] theorem atPresses_nil : atPresses [] = [] := rfl

theorem atPresses_concat (past : History) (entry : Transition) :
    atPresses (past ++ [entry]) =
      past.atPresses ++ if entry.pressed then [past ++ [entry]] else [] := by
  rw [atPresses, List.inits_append, List.filter_append, ← atPresses]
  congr 1
  simp [endsInPress, List.filter_cons]

theorem atPresses_append (earlier past : History) :
    atPresses (earlier ++ past) = earlier.atPresses ++ past.atPresses.map (earlier ++ ·) := by
  induction past using List.reverseRecOn with
  | nil => simp
  | append_singleton past entry ih =>
    rw [← List.append_assoc, atPresses_concat, atPresses_concat, ih, List.map_append,
      List.append_assoc, List.append_assoc]
    split <;> simp

/-- One history for each press. -/
theorem length_atPresses (past : History) : past.atPresses.length = past.countP (·.pressed) := by
  induction past using List.reverseRecOn with
  | nil => rfl
  | append_singleton past entry ih =>
    rw [atPresses_concat, List.length_append, ih, List.countP_append, List.countP_singleton]
    split <;> rfl

/-- The newest transitions of these histories are the presses. -/
theorem map_getLast?_atPresses (past : History) :
    past.atPresses.map List.getLast? = (past.filter (·.pressed)).map some := by
  induction past using List.reverseRecOn with
  | nil => rfl
  | append_singleton past entry ih =>
    rw [atPresses_concat, List.map_append, ih, List.filter_append, List.map_append]
    cases hp : entry.pressed <;> simp [hp]

/-! ## 2. Completing chords -/

/-- Whether a history, as it stands just after a press, completes a chord: the pressed input is a
    member, and all members are down. -/
def Completes (upTo : History) (chord : Chord) : Prop :=
  (∃ entry ∈ upTo.getLast?, entry.input ∈ chord.members) ∧
    ∀ input ∈ chord.members, upTo.isDown input = true

instance (upTo : History) (chord : Chord) : Decidable (Completes upTo chord) :=
  inferInstanceAs (Decidable (_ ∧ _))

/-- Whether the last presses of a history complete some chords, one press for each chord. -/
def CompletesEach (past : History) (chords : List Chord) : Prop :=
  List.Forall₂ Completes (Sequence.keepLast chords.length past.atPresses) chords

instance (past : History) (chords : List Chord) : Decidable (past.CompletesEach chords) :=
  inferInstanceAs (Decidable (List.Forall₂ _ _ _))

/-- There is a press for each chord. -/
theorem CompletesEach.length_le {past : History} {chords : List Chord}
    (h : past.CompletesEach chords) : chords.length ≤ past.atPresses.length := by
  have hl := List.Forall₂.length_eq h
  rw [Sequence.length_keepLast] at hl
  omega

theorem Completes.append {earlier upTo : History} {chord : Chord} (h : upTo.Completes chord) :
    Completes (earlier ++ upTo) chord := by
  obtain ⟨⟨entry, he, hmem⟩, hdown⟩ := h
  refine ⟨⟨entry, ?_, hmem⟩, fun input hi => isDown_append (hdown input hi)⟩
  have he' : upTo.getLast? = some entry := he
  rw [Option.mem_def, List.getLast?_append, he', Option.some_or]

/-- **What the newest part of a history completes, the whole completes.** -/
theorem CompletesEach.append {earlier past : History} {chords : List Chord}
    (h : past.CompletesEach chords) : CompletesEach (earlier ++ past) chords := by
  have hl : chords.length ≤ (past.atPresses.map (earlier ++ ·)).length := by
    rw [List.length_map]
    exact h.length_le
  rw [CompletesEach, atPresses_append, Sequence.keepLast_append_of_le_length _ hl,
    ← Sequence.map_keepLast, List.forall₂_map_left_iff]
  exact List.Forall₂.imp (fun _ _ => Completes.append) h

end History

/-! ## 3. The moments of a log -/

namespace Moment

theorem ofLog_append (down : Chord) (older newer : History) :
    ofLog down (older ++ newer) =
      ofLog down older ++ ofLog (older.foldl History.follow down) newer := by
  induction older generalizing down with
  | nil => rfl
  | cons entry older ih =>
    rw [List.cons_append, ofLog, ofLog, List.foldl_cons, History.follow]
    split
    · rw [ih, List.cons_append]
    · rw [ih]

/-- A moment stands for a press: its fresh input is the pressed one, its group what is down. -/
def Shows (m : Moment) (upTo : History) : Prop :=
  (∃ entry ∈ upTo.getLast?, entry.input = m.fresh) ∧ m.group = upTo.down

/-- **The moments of a log stand for its presses, place by place.** -/
theorem forall₂_ofLog_atPresses (log : History) :
    List.Forall₂ Shows (ofLog .empty log) log.atPresses := by
  induction log using List.reverseRecOn with
  | nil => exact .nil
  | append_singleton log entry ih =>
    rw [ofLog_append, History.atPresses_concat]
    refine List.rel_append ih ?_
    rw [ofLog]
    split
    · next hp =>
      refine .cons ⟨⟨entry, ?_, rfl⟩, ?_⟩ .nil
      · rw [List.getLast?_concat]
        rfl
      · rw [History.down_concat, History.follow, if_pos hp]
        rfl
    · exact .nil

/-! ## 4. What is carried over -/

/-- Each moment's group has, beyond the fresh input, only inputs of the group before it, where
    `previous` is the group before the first. -/
def Carried (previous : Option Chord) : List Moment → Prop
  | [] => True
  | m :: ms =>
    (∀ input ∈ m.group.members, input = m.fresh ∨ ∃ before ∈ previous, input ∈ before.members) ∧
      Carried (some m.group) ms

/-- **Between two moments inputs are only let go.** -/
theorem carried_ofLog {down : Chord} {previous : Option Chord} (log : History)
    (h : ∀ input ∈ down.members, ∃ before ∈ previous, input ∈ before.members) :
    Carried previous (ofLog down log) := by
  induction log generalizing down previous with
  | nil => exact trivial
  | cons entry log ih =>
    rw [ofLog]
    split
    · refine ⟨fun input hi => ?_, ih fun input hi => ⟨_, rfl, hi⟩⟩
      rcases Chord.mem_members_insert.mp hi with hd | hx
      · exact Or.inr (h input hd)
      · exact Or.inl hx
    · exact ih fun input hi => h input (Chord.mem_members_erase.mp hi).2

/-- The log begins with nothing down. -/
theorem carried_ofLog_empty (log : History) : Carried none (ofLog .empty log) :=
  carried_ofLog log fun _ hi => absurd hi List.not_mem_nil

/-- With no group before it, a first group has its fresh input alone. -/
theorem Carried.members_head {moments : List Moment} (h : Carried none moments) {first : Moment}
    (hfirst : first ∈ moments.head?) (hfresh : first.fresh ∈ first.group.members) :
    first.group.members = [first.fresh] := by
  obtain ⟨rest, rfl⟩ := List.head?_eq_some_iff.mp hfirst
  have hall : ∀ input ∈ first.group.members, input = first.fresh := fun input hi =>
    (h.1 input hi).resolve_right fun hbefore => absurd hbefore nofun
  have hrepeat := List.eq_replicate_of_mem hall
  have hone : first.group.members.length ≤ 1 := by
    have hnodup := first.group.nodup
    rw [hrepeat, List.nodup_replicate] at hnodup
    exact hnodup
  have hpos : 0 < first.group.members.length := List.length_pos_of_mem hfresh
  rw [hrepeat, Nat.le_antisymm hone hpos, List.replicate_one]

/-- Each group follows the one before it. -/
theorem Carried.isChain {previous : Option Chord} {moments : List Moment}
    (h : Carried previous moments) :
    moments.IsChain fun before after =>
      (after.group.erase after.fresh).members ⊆ before.group.members := by
  induction moments generalizing previous with
  | nil => exact .nil
  | cons m moments ih =>
    cases moments with
    | nil => exact .singleton m
    | cons after moments =>
      refine .cons_cons (fun input hi => ?_) (ih h.2)
      obtain ⟨hne, hmem⟩ := Chord.mem_members_erase.mp hi
      obtain ⟨before, hb, hbefore⟩ := (h.2.1 input hmem).resolve_left hne
      exact Option.mem_some_iff.mp hb ▸ hbefore

theorem Carried.of_append {previous : Option Chord} {older newer : List Moment}
    (h : Carried previous (older ++ newer)) :
    Carried ((older.getLast?.map (·.group)).or previous) newer := by
  induction older generalizing previous with
  | nil => exact h
  | cons m older ih =>
    have hrest := ih h.2
    rw [List.getLast?_cons]
    cases hl : older.getLast? with
    | none =>
      rw [hl] at hrest
      exact hrest
    | some last =>
      rw [hl] at hrest
      exact hrest

end Moment

/-! ## 5. Matching without the third test -/

namespace Matching

/-- What is left of a chord's match with a moment. -/
def Brings (m : Moment) (chord : Chord) : Prop :=
  m.fresh ∈ chord.members ∧ chord.members ⊆ m.group.members

/-- **The test of what is carried over never fails**, so only the fresh input and the chord's own
    members count. -/
theorem chordsMatch_iff_of_carried {previous : Option Chord} {moments : List Moment}
    {chords : List Chord} (hc : Moment.Carried previous moments)
    (hl : moments.length = chords.length) :
    chordsMatch previous chords moments = true ↔ List.Forall₂ Brings moments chords := by
  induction moments generalizing previous chords with
  | nil =>
    rw [List.eq_nil_of_length_eq_zero hl.symm]
    simp [chordsMatch]
  | cons m moments ih =>
    cases chords with
    | nil => simp at hl
    | cons chord chords =>
      rw [chordsMatch, Bool.and_eq_true, chordMatches_iff, List.forall₂_cons,
        ih hc.2 (Nat.succ.inj hl)]
      refine and_congr_left fun _ => ⟨fun h => ⟨h.1, h.2.1⟩, fun h => ⟨h.1, h.2, ?_⟩⟩
      intro input hi hn
      exact (hc.1 input hi).resolve_left fun e => hn (e ▸ h.1)

/-- Sequential matching asks that each of the last moments brings its chord. -/
theorem sequential_iff_brings {p : Pattern} {moments : List Moment}
    (hc : Moment.Carried none moments) :
    sequential p moments = true ↔ 0 < p.size ∧ p.size ≤ moments.length ∧
      List.Forall₂ Brings (Sequence.keepLast p.size moments) p.chords := by
  simp only [sequential, Bool.and_eq_true, decide_eq_true_eq, and_assoc]
  refine and_congr_right fun _ => and_congr_right fun hl => ?_
  have hsplit := hc
  rw [← List.take_append_drop (moments.length - p.size) moments] at hsplit
  have hlast := hsplit.of_append
  rw [Option.or_none] at hlast
  have hsize : (Sequence.keepLast p.size moments).length = p.chords.length := by
    rw [Sequence.length_keepLast]
    exact Nat.min_eq_left hl
  exact chordsMatch_iff_of_carried hlast hsize

/-- A moment brings a chord exactly when the history that it stands for completes it. -/
theorem brings_iff {m : Moment} {upTo : History} (h : m.Shows upTo) (chord : Chord) :
    Brings m chord ↔ upTo.Completes chord := by
  obtain ⟨⟨entry, he, hf⟩, hg⟩ := h
  have hfresh : m.fresh ∈ chord.members ↔ ∃ e ∈ upTo.getLast?, e.input ∈ chord.members := by
    rw [← hf]
    exact ⟨fun hm => ⟨entry, he, hm⟩, fun ⟨e, he', hm⟩ => Option.mem_unique he he' ▸ hm⟩
  refine and_congr hfresh ?_
  rw [List.subset_def, hg]
  exact forall₂_congr fun input _ => History.mem_down_iff

/-- **Sequential matching on a log asks that its last presses complete the chords.** -/
theorem sequential_iff_completesEach {p : Pattern} {log : History} :
    sequential p (Moment.ofLog .empty log) = true ↔ 0 < p.size ∧ log.CompletesEach p.chords := by
  have hshow := Moment.forall₂_ofLog_atPresses log
  have hlen : (Moment.ofLog .empty log).length = log.atPresses.length := hshow.length_eq
  have heach : List.Forall₂ Brings (Sequence.keepLast p.size (Moment.ofLog .empty log)) p.chords ↔
      log.CompletesEach p.chords :=
    Sequence.forall₂_congr_left (Sequence.forall₂_keepLast _ hshow)
      fun m upTo chord hm => brings_iff hm chord
  rw [sequential_iff_brings (Moment.carried_ofLog_empty log), heach, hlen]
  exact and_congr_right fun _ => and_iff_right_of_imp History.CompletesEach.length_le

end Matching

/-! ## 6. The moments of a tracker -/

/-- **The test of what is carried over is redundant on a tracker's moments**, wherever its log has
    been cut. The first group is the fresh input alone, and each later one has beyond its fresh
    input nothing but inputs of the group before it. So a sequence matches exactly when there is a
    moment for each chord and, place by place, the last moments have their fresh input in the chord
    and the chord in their group. -/
theorem carried_test_redundant (t : Tracker) :
    (∀ first ∈ t.moments.head?, first.group.members = [first.fresh]) ∧
      t.moments.IsChain (fun before after =>
        (after.group.erase after.fresh).members ⊆ before.group.members) ∧
      ∀ p : Pattern, Matching.sequential p t.moments = true ↔
        0 < p.size ∧ p.size ≤ t.moments.length ∧
          List.Forall₂ (fun m chord => m.fresh ∈ chord.members ∧ chord.members ⊆ m.group.members)
            (Sequence.keepLast p.size t.moments) p.chords := by
  have hc : Moment.Carried none t.moments := Moment.carried_ofLog_empty t.log
  refine ⟨fun first hfirst => ?_, hc.isChain, fun p => Matching.sequential_iff_brings hc⟩
  have hfresh : first.fresh ∈ first.group.members :=
    Moment.fresh_mem_group (List.mem_of_mem_head? hfirst)
  exact hc.members_head hfirst hfresh

/-- `ShiftLeft` is carried into the last two moments, and the log has lost what was pressed first. -/
theorem carried_shift_passes :
    let t := (Tracker.new (.ofNumbers 500 4 5)).run [.press "KeyZ" 0, .press "ShiftLeft" 10,
      .press "KeyE" 20, .release "KeyE" 30, .press "KeyD" 40]
    let p := Pattern.ofLists [["KeyE"], ["KeyD"]]
    t.moments.map (·.group.members) =
        [["ShiftLeft"], ["ShiftLeft", "KeyE"], ["ShiftLeft", "KeyD"]] ∧
      Matching.sequential p t.moments = true := by
  intro t p
  have hmatches := (carried_test_redundant t).2.2 p
  exact ⟨by decide, hmatches.mpr ⟨by decide, by decide, by decide⟩⟩

/-- On moments of no log the test does refuse: here `ShiftLeft` is down from nowhere. -/
example : Matching.sequential (.ofLists [["KeyA"]])
    [⟨.ofList ["ShiftLeft", "KeyA"], "KeyA"⟩] = false := by decide

end KeyBindings
