import KeyBindings.Proofs.History

/-!
# How long a release is remembered

An entry leaves the release history in two ways only: its window has passed at the instant of a
later operation, or newer releases of OTHER inputs need its room. So it stays as long as all later
operations come in time and release few enough inputs.

* `Tracker.Remembers` -- the entry stands in the history, and what stands after it are releases of
  other inputs, each once, out of a list of names;
* `Remembers.step`, `Remembers.run` -- operations that spare the entry (`TrackerOp.Spares`) keep it,
  as long as there is room for all names;
* **`releasedRecently_of_room`**: an input released in the newest part of a run counts as released,
  whatever went before, when that part releases no more inputs than there is room for.
-/

namespace KeyBindings

/-! ## 1. The latest release of a run -/

namespace History

/-- Every transition of a history was an operation of the run. -/
theorem op_mem_of_mem_ofOps {ops : List TrackerOp} {entry : Transition} (h : entry ∈ ofOps ops) :
    entry.op ∈ ops := by
  induction ops using List.reverseRecOn with
  | nil => exact absurd h List.not_mem_nil
  | append_singleton ops op ih =>
    rw [ofOps_concat] at h
    cases op with
    | press input now =>
      rcases List.mem_append.mp h with h | h
      · exact List.mem_append_left _ (ih h)
      · rw [List.mem_singleton.mp h]
        exact List.mem_append_right _ (List.mem_singleton_self _)
    | release input now =>
      rcases List.mem_append.mp h with h | h
      · exact List.mem_append_left _ (ih h)
      · rw [List.mem_singleton.mp h]
        exact List.mem_append_right _ (List.mem_singleton_self _)
    | prune now => exact List.mem_append_left _ (ih h)
    | clear => exact absurd h List.not_mem_nil

/-- Without a clear every press and release of the run is in its history. -/
theorem mem_ofOps_of_op_mem {ops : List TrackerOp} {entry : Transition} (hc : .clear ∉ ops)
    (h : entry.op ∈ ops) : entry ∈ ofOps ops := by
  induction ops using List.reverseRecOn with
  | nil => exact absurd h List.not_mem_nil
  | append_singleton ops op ih =>
    rw [List.mem_append, List.mem_singleton] at hc
    have hold : entry.op ∈ ops → entry ∈ ofOps ops := ih fun e => hc (Or.inl e)
    rw [ofOps_concat]
    rcases List.mem_append.mp h with hm | hm
    · cases op with
      | press input now => exact List.mem_append_left _ (hold hm)
      | release input now => exact List.mem_append_left _ (hold hm)
      | prune now => exact hold hm
      | clear => exact absurd (Or.inr rfl) hc
    · rw [← List.mem_singleton.mp hm, extend_op]
      exact List.mem_append_right _ (List.mem_singleton_self _)

/-- **A released input has a latest release**, at the same operation or a later one, with no clear
    after it. -/
theorem exists_latest_release {ops : List TrackerOp} {entry : Transition} (h : entry ∈ ofOps ops)
    (hp : entry.pressed = false) :
    ∃ before time after, ops = before ++ .release entry.input time :: after ∧
      (entry.time = time ∨ entry.op ∈ before) ∧ .clear ∉ after ∧
        ∀ now, .release entry.input now ∉ after := by
  induction ops using List.reverseRecOn with
  | nil => exact absurd h List.not_mem_nil
  | append_singleton ops op ih =>
    -- an operation that does not release the input goes to the end of what comes after
    have hlater : entry ∈ ofOps ops → op ≠ .clear → (∀ now, op ≠ .release entry.input now) →
        ∃ before time after, ops ++ [op] = before ++ .release entry.input time :: after ∧
          (entry.time = time ∨ entry.op ∈ before) ∧ .clear ∉ after ∧
            ∀ now, .release entry.input now ∉ after := by
      intro hold hclear hother
      obtain ⟨before, time, after, rfl, ht, hc, hr⟩ := ih hold
      refine ⟨before, time, after ++ [op], by simp, ht, ?_, fun now hn => ?_⟩
      · intro hn
        rcases List.mem_append.mp hn with hn | hn
        · exact hc hn
        · exact hclear (List.mem_singleton.mp hn).symm
      · rcases List.mem_append.mp hn with hn | hn
        · exact hr now hn
        · exact hother now (List.mem_singleton.mp hn).symm
    rw [ofOps_concat] at h
    cases op with
    | press input now =>
      rcases List.mem_append.mp h with h | h
      · exact hlater h nofun nofun
      · rw [List.mem_singleton.mp h] at hp
        exact absurd hp nofun
    | prune now => exact hlater h nofun nofun
    | clear => exact absurd h List.not_mem_nil
    | release input now =>
      by_cases hx : input = entry.input
      · subst hx
        refine ⟨ops, now, [], rfl, ?_, List.not_mem_nil, fun _ => List.not_mem_nil⟩
        rcases List.mem_append.mp h with h | h
        · exact Or.inr (op_mem_of_mem_ofOps h)
        · exact Or.inl (by rw [List.mem_singleton.mp h])
      · rcases List.mem_append.mp h with h | h
        · refine hlater h nofun fun time e => ?_
          rw [TrackerOp.release.injEq] at e
          exact hx e.1
        · exact absurd (by rw [List.mem_singleton.mp h]) hx

end History

/-! ## 2. What spares an entry -/

/-- An operation spares an entry when it comes in time and releases another input, one of some
    names. -/
def TrackerOp.Spares (r : Release) (names : List Input) : TrackerOp → Prop
  | .press _ _ => True
  | .release input now => now ≤ r.expiry ∧ input ≠ r.input ∧ input ∈ names
  | .prune now => now ≤ r.expiry
  | .clear => False

namespace Tracker

/-- An entry is remembered, and the entries after it are of other inputs out of some names. -/
def Remembers (t : Tracker) (names : List Input) (r : Release) : Prop :=
  ∃ older newer, t.releases = older ++ r :: newer ∧ ((r :: newer).map (·.input)).Nodup ∧
    ∀ s ∈ newer, s.input ∈ names

theorem Remembers.mem {t : Tracker} {names : List Input} {r : Release} (h : t.Remembers names r) :
    r ∈ t.releases := by
  obtain ⟨older, newer, he, -, -⟩ := h
  rw [he]
  exact List.mem_append_right _ List.mem_cons_self

/-- A release is remembered at once, if there is room at all. -/
theorem remembers_release (t : Tracker) (input : Input) (now : Instant) (names : List Input)
    (hroom : 0 < t.limits.releases) :
    (t.release input now).Remembers names ⟨input, now + t.limits.window⟩ := by
  refine ⟨Sequence.keepLast (t.limits.releases - 1)
      ((t.prune now).releases.filter (·.input ≠ input)), [], ?_, List.nodup_singleton _,
    fun s hs => absurd hs List.not_mem_nil⟩
  rw [releases_release]
  exact Sequence.keepLast_append_of_length_le _ hroom

/-- Entries after the remembered one are few: each has a name of its own. -/
theorem length_le_of_nodup {names : List Input} {r : Release} {newer : List Release}
    (hr : r.input ∈ names) (hnd : ((r :: newer).map (·.input)).Nodup)
    (hnames : ∀ s ∈ newer, s.input ∈ names) : (r :: newer).length ≤ names.length := by
  rw [← List.length_map (·.input)]
  refine hnd.length_le_of_subset fun x hx => ?_
  obtain ⟨s, hs, rfl⟩ := List.mem_map.mp hx
  rcases List.mem_cons.mp hs with rfl | hs
  · exact hr
  · exact hnames s hs

/-- Dropping expired entries keeps one that still counts. -/
theorem Remembers.prune {t : Tracker} {names : List Input} {r : Release} (h : t.Remembers names r)
    {now : Instant} (ht : now ≤ r.expiry) : (t.prune now).Remembers names r := by
  obtain ⟨older, newer, he, hnd, hnames⟩ := h
  have hin : decide (now ≤ r.expiry) = true := decide_eq_true ht
  refine ⟨older.filter fun s => now ≤ s.expiry, newer.filter fun s => now ≤ s.expiry, ?_,
    hnd.sublist ((List.filter_sublist.cons_cons r).map _),
    fun s hs => hnames s (List.mem_of_mem_filter hs)⟩
  rw [releases_prune, he, List.filter_append, List.filter_cons, if_pos hin]

/-- A newer release of another input keeps an entry, if there is room for all names. -/
theorem Remembers.remember {t : Tracker} {names : List Input} {r : Release}
    (h : t.Remembers names r) (hr : r.input ∈ names) (hroom : names.length ≤ t.limits.releases)
    {input : Input} (now : Instant) (hne : input ≠ r.input) (hname : input ∈ names) :
    (t.remember input now).Remembers names r := by
  obtain ⟨older, newer, he, hnd, hnames⟩ := h
  have hkeep : decide (r.input ≠ input) = true := decide_eq_true hne.symm
  have hleft : (newer.filter (·.input ≠ input)).Sublist newer := List.filter_sublist
  -- the entries after `r`, with the new one for `input`
  generalize hlater : newer.filter (·.input ≠ input) ++ [⟨input, now + t.limits.window⟩] = later
  have hnames' : ∀ s ∈ later, s.input ∈ names := by
    rw [← hlater]
    intro s hs
    rcases List.mem_append.mp hs with hs | hs
    · exact hnames s (hleft.subset hs)
    · rw [List.mem_singleton.mp hs]
      exact hname
  have hnd' : ((r :: later).map (·.input)).Nodup := by
    rw [← hlater, ← List.cons_append, List.map_append, List.nodup_append]
    refine ⟨hnd.sublist ((hleft.cons_cons r).map _), List.nodup_singleton _, ?_⟩
    intro a ha b hb
    obtain ⟨s, hs, rfl⟩ := List.mem_map.mp ha
    rw [List.mem_singleton.mp hb]
    rcases List.mem_cons.mp hs with rfl | hs
    · exact hne.symm
    · exact of_decide_eq_true (List.mem_filter.mp hs).2
  have hlen : (r :: later).length ≤ t.limits.releases :=
    Nat.le_trans (length_le_of_nodup hr hnd' hnames') hroom
  refine ⟨Sequence.keepLast (t.limits.releases - (r :: later).length)
    (older.filter (·.input ≠ input)), later, ?_, hnd', hnames'⟩
  rw [releases_remember, he, List.filter_append, List.filter_cons, if_pos hkeep, List.append_assoc,
    List.cons_append, hlater]
  exact Sequence.keepLast_append_of_length_le _ hlen

/-- **An operation that spares an entry keeps it.** -/
theorem Remembers.step {t : Tracker} {names : List Input} {r : Release} (h : t.Remembers names r)
    (hr : r.input ∈ names) (hroom : names.length ≤ t.limits.releases) {op : TrackerOp}
    (hop : op.Spares r names) : (t.step op).Remembers names r := by
  cases op with
  | press input now => exact h
  | clear => exact absurd hop id
  | prune now => exact h.prune hop
  | release input now =>
    obtain ⟨htime, hne, hname⟩ := hop
    have hlet : ({ t with held := t.held.erase input }.record
        ⟨input, false, now⟩).Remembers names r := h
    exact (hlet.prune htime).remember hr hroom now hne hname

theorem Remembers.run {t : Tracker} {names : List Input} {r : Release} (h : t.Remembers names r)
    (hr : r.input ∈ names) (hroom : names.length ≤ t.limits.releases) {ops : List TrackerOp}
    (hops : ∀ op ∈ ops, op.Spares r names) : (t.run ops).Remembers names r := by
  induction ops generalizing t with
  | nil => exact h
  | cons op ops ih =>
    refine ih (h.step hr hroom (hops op List.mem_cons_self)) ?_ fun o ho =>
      hops o (List.mem_cons_of_mem _ ho)
    rw [limits_step]
    exact hroom

/-! ## 3. Released in the newest part of a run -/

/-- Without a clear or another release of the input, what comes after a release spares its entry as
    long as time goes forward and the window lasts. -/
theorem spares_of_latest {before after : List TrackerOp} {input : Input} {time now : Instant}
    {window : Nat} (hf : Forward (before ++ .release input time :: after) now)
    (hn : now ≤ time + window) (hclear : .clear ∉ after)
    (hlast : ∀ later, .release input later ∉ after) :
    ∀ op ∈ after, op.Spares ⟨input, time + window⟩
      (History.ofOps (before ++ .release input time :: after)).released := by
  intro op hop
  have hmem : op ∈ before ++ .release input time :: after :=
    List.mem_append_right _ (List.mem_cons_of_mem _ hop)
  cases op with
  | press other later => exact trivial
  | clear => exact hclear hop
  | prune later => exact Nat.le_trans (hf.le_now hmem rfl) hn
  | release other later =>
    refine ⟨Nat.le_trans (hf.le_now hmem rfl) hn, ?_, ?_⟩
    · rintro rfl
      exact hlast later hop
    · have hsuffix := History.ofOps_suffix_append (before ++ [.release input time]) after
      rw [List.append_assoc, List.singleton_append] at hsuffix
      exact History.mem_released_iff.mpr ⟨⟨other, false, later⟩,
        hsuffix.subset (History.mem_ofOps_of_op_mem hclear hop), rfl, rfl⟩

/-- **A release counts as long as its window lasts, if there is room.** Nothing is asked of what
    went before: older entries make room first. -/
theorem releasedRecently_of_room {limits : Limits} (earlier : List TrackerOp)
    {ops : List TrackerOp} {now : Instant} {entry : Transition} (hf : Forward ops now)
    (hroom : (History.ofOps ops).released.length ≤ limits.releases)
    (he : entry ∈ History.ofOps ops) (hp : entry.pressed = false)
    (hn : now ≤ entry.time + limits.window) :
    ((new limits).run (earlier ++ ops)).releasedRecently entry.input now = true := by
  have hname : entry.input ∈ (History.ofOps ops).released :=
    History.mem_released_iff.mpr ⟨entry, he, rfl, hp⟩
  rw [(follows_run limits _).releasedRecently_iff]
  obtain ⟨before, time, after, rfl, ht, hclear, hlast⟩ := History.exists_latest_release he hp
  have hle : entry.time ≤ time := by
    rcases ht with ht | ht
    · exact Nat.le_of_eq ht
    · exact hf.le_later ht entry.instant?_op rfl
  have hnow : now ≤ time + limits.window := Nat.le_trans hn (Nat.add_le_add_right hle _)
  have hspares := spares_of_latest hf hnow hclear hlast
  refine ⟨⟨entry.input, time + limits.window⟩, ?_, rfl, hnow⟩
  rw [run_append, run_append, run_cons, ← run_append]
  have hlimits : ((new limits).run (earlier ++ before)).limits = limits := limits_run _ _
  generalize (new limits).run (earlier ++ before) = t at hlimits ⊢
  subst hlimits
  have hpos : 0 < t.limits.releases := Nat.lt_of_lt_of_le (List.length_pos_of_mem hname) hroom
  exact ((remembers_release t entry.input time _ hpos).run hname hroom hspares).mem

end Tracker

end KeyBindings
