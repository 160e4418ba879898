import KeyBindings.Proofs.Dispatch

/-!
# Calls to a registry

A registry is called to insert bindings, to remove one, to get one by its id and to list them all,
in any order. It keeps bindings and a counter; beside it stands the list of the calls, which says
what ought to be there.

* `RegistryCall.Keeps` -- a binding that was inserted, under the number of insertions before it, and
  not removed afterwards;
* `Keeps.of_concat`, `keeps_concat_iff` -- one more call keeps what it does not remove;
* `Registry.Follows` -- the counter counts the insertions and the bindings are those kept, in the
  order of their ids; each call keeps that (`Follows.step`);
* **`registry_follows_calls`**: so it is after all calls, with what that means for each answer.

An id is the NUMBER of insertions before it, so ids last as long as a count of the insertions does.
-/

namespace KeyBindings

variable {α : Type}

/-! ## 1. Calls and what they leave -/

/-- A call to a registry. -/
inductive RegistryCall (α : Type) where
  | insert (source : String) (pattern : Pattern) (mode : Mode) (callback : α)
  | remove (id : BindingId)
  | get (id : BindingId)
  | list

namespace RegistryCall

def isInsert : RegistryCall α → Bool
  | .insert _ _ _ _ => true
  | _ => false

/-- The call that inserts a binding. -/
def inserting (b : Binding α) : RegistryCall α := .insert b.source b.pattern b.mode b.callback

/-- How often calls insert. -/
def insertions (calls : List (RegistryCall α)) : Nat := calls.countP isInsert

/-- A binding was inserted with all it has, its id is the number of insertions before, and it has
    not been removed since. -/
def Keeps (calls : List (RegistryCall α)) (b : Binding α) : Prop :=
  ∃ before after, calls = before ++ inserting b :: after ∧ b.id = insertions before ∧
    .remove b.id ∉ after

variable {calls : List (RegistryCall α)} {call : RegistryCall α} {b : Binding α}

theorem insertions_concat (calls : List (RegistryCall α)) (call : RegistryCall α) :
    insertions (calls ++ [call]) = insertions calls + if call.isInsert then 1 else 0 := by
  rw [insertions, List.countP_append, List.countP_singleton, insertions]

theorem not_keeps_nil : ¬ Keeps [] b := by
  rintro ⟨before, after, he, -⟩
  exact List.append_ne_nil_of_right_ne_nil before (List.cons_ne_nil _ after) he.symm

/-- **A call keeps what it does not remove, and an insertion adds its binding under the next id.** -/
theorem keeps_concat_iff :
    Keeps (calls ++ [call]) b ↔
      Keeps calls b ∧ call ≠ .remove b.id ∨ call = inserting b ∧ b.id = insertions calls := by
  constructor
  · rintro ⟨before, after, he, hid, hkept⟩
    rcases List.eq_nil_or_concat' after with rfl | ⟨after, last, rfl⟩
    · obtain ⟨rfl, hcall⟩ := List.append_inj' he rfl
      exact Or.inr ⟨List.singleton_inj.mp hcall, hid⟩
    · rw [← List.cons_append, ← List.append_assoc] at he
      obtain ⟨rfl, hcall⟩ := List.append_inj' he rfl
      obtain rfl := List.singleton_inj.mp hcall
      rw [List.mem_append, not_or, List.mem_singleton] at hkept
      exact Or.inl ⟨⟨before, after, rfl, hid, hkept.1⟩, fun e => hkept.2 e.symm⟩
  · rintro (⟨⟨before, after, rfl, hid, hkept⟩, hcall⟩ | ⟨rfl, hid⟩)
    · refine ⟨before, after ++ [call], by simp, hid, ?_⟩
      rw [List.mem_append, not_or, List.mem_singleton]
      exact ⟨hkept, fun e => hcall e.symm⟩
    · exact ⟨calls, [], rfl, hid, List.not_mem_nil⟩

end RegistryCall

/-! ## 2. The registry after some calls -/

/-- What a registry answers to a call. -/
inductive RegistryAnswer (α : Type) where
  | inserted (id : BindingId)
  | removed (found : Bool)
  | got (binding? : Option (Binding α))
  | listed (bindings : List (Binding α))

/-- The id that an answer hands out. -/
def RegistryAnswer.handedOut? : RegistryAnswer α → Option BindingId
  | .inserted id => some id
  | _ => none

namespace Registry

variable {r : Registry α} {calls : List (RegistryCall α)} {call : RegistryCall α} {b : Binding α}

/-- Carries a call out, and answers it. -/
def answer (r : Registry α) : RegistryCall α → Registry α × RegistryAnswer α
  | .insert source pattern mode callback =>
    let inserted := r.insert source pattern mode callback
    (inserted.1, .inserted inserted.2)
  | .remove id =>
    let removed := r.remove id
    (removed.1, .removed removed.2)
  | .get id => (r, .got (r.find? id))
  | .list => (r, .listed r.bindings)

/-- The registry after some calls. -/
def after (r : Registry α) (calls : List (RegistryCall α)) : Registry α :=
  calls.foldl (fun r call => (r.answer call).1) r

/-- The answers to some calls, in order. -/
def answers (r : Registry α) : List (RegistryCall α) → List (RegistryAnswer α)
  | [] => []
  | call :: calls => (r.answer call).2 :: (r.answer call).1.answers calls

theorem after_concat (r : Registry α) (calls : List (RegistryCall α)) (call : RegistryCall α) :
    r.after (calls ++ [call]) = ((r.after calls).answer call).1 := List.foldl_append

theorem answers_concat (r : Registry α) (calls : List (RegistryCall α)) (call : RegistryCall α) :
    r.answers (calls ++ [call]) = r.answers calls ++ [((r.after calls).answer call).2] := by
  induction calls generalizing r with
  | nil => rfl
  | cons first calls ih =>
    rw [List.cons_append, answers, ih, answers, List.cons_append]
    rfl

/-! ## 3. The registry follows the calls -/

/-- What a registry has to do with the calls that led to it. -/
structure Follows (r : Registry α) (calls : List (RegistryCall α)) : Prop where
  nextId : r.nextId = RegistryCall.insertions calls
  ordered : r.Ordered
  mem_iff : ∀ b, b ∈ r.bindings ↔ RegistryCall.Keeps calls b

theorem follows_empty : (empty : Registry α).Follows [] where
  nextId := rfl
  ordered := ordered_empty
  mem_iff _ := iff_of_false List.not_mem_nil RegistryCall.not_keeps_nil

/-- **Each call leaves the bindings that are kept.** -/
theorem Follows.step (h : r.Follows calls) (call : RegistryCall α) :
    (r.answer call).1.Follows (calls ++ [call]) where
  nextId := by
    rw [RegistryCall.insertions_concat, ← h.nextId]
    cases call <;> rfl
  ordered := by
    cases call with
    | insert source pattern mode callback => exact h.ordered.insert source pattern mode callback
    | remove id => exact h.ordered.without id
    | get id => exact h.ordered
    | list => exact h.ordered
  mem_iff b := by
    rw [RegistryCall.keeps_concat_iff, ← h.mem_iff, ← h.nextId]
    cases call with
    | insert source pattern mode callback =>
      obtain ⟨id, bsource, bpattern, bmode, bcallback⟩ := b
      show _ ∈ r.bindings ++ [_] ↔ _
      rw [List.mem_append, List.mem_singleton, and_iff_left nofun]
      refine or_congr_right ?_
      rw [RegistryCall.inserting, RegistryCall.insert.injEq, Binding.mk.injEq]
      constructor
      · rintro ⟨rfl, rfl, rfl, rfl, rfl⟩
        exact ⟨⟨rfl, rfl, rfl, rfl⟩, rfl⟩
      · rintro ⟨⟨rfl, rfl, rfl, rfl⟩, rfl⟩
        exact ⟨rfl, rfl, rfl, rfl, rfl⟩
    | remove id =>
      show b ∈ r.bindings.filter (·.id ≠ id) ↔ _
      rw [List.mem_filter, decide_eq_true_eq, or_iff_left (fun e => nomatch e.1), ne_eq, ne_eq,
        RegistryCall.remove.injEq, eq_comm]
    | get id => exact ⟨fun hb => Or.inl ⟨hb, nofun⟩, fun hb => (hb.resolve_right (nomatch ·.1)).1⟩
    | list => exact ⟨fun hb => Or.inl ⟨hb, nofun⟩, fun hb => (hb.resolve_right (nomatch ·.1)).1⟩

theorem follows_after (calls : List (RegistryCall α)) : (empty.after calls).Follows calls := by
  induction calls using List.reverseRecOn with
  | nil => exact follows_empty
  | append_singleton calls call ih =>
    rw [after_concat]
    exact ih.step call

/-- **Ids are handed out in the order of the calls, counted from zero.** -/
theorem handedOut_answers (calls : List (RegistryCall α)) :
    ((empty : Registry α).answers calls).filterMap RegistryAnswer.handedOut? =
      List.range (RegistryCall.insertions calls) := by
  induction calls using List.reverseRecOn with
  | nil => rfl
  | append_singleton calls call ih =>
    have hnext := (follows_after calls).nextId
    rw [answers_concat, List.filterMap_append, ih, RegistryCall.insertions_concat]
    cases call with
    | insert source pattern mode callback =>
      show _ = List.range (RegistryCall.insertions calls + 1)
      rw [List.range_succ, ← hnext]
      rfl
    | remove id => exact List.append_nil _
    | get id => exact List.append_nil _
    | list => exact List.append_nil _

/-- Where ids rise, a binding is found under its id and under no other. -/
theorem Ordered.find?_eq_some_iff (h : r.Ordered) {id : BindingId} :
    r.find? id = some b ↔ b ∈ r.bindings ∧ b.id = id := by
  constructor
  · intro hfound
    have hid := List.find?_some hfound
    exact ⟨List.mem_of_find?_eq_some hfound, of_decide_eq_true hid⟩
  · rintro ⟨hb, rfl⟩
    exact h.find?_id hb

/-- A removal says whether there was a binding under the id. -/
theorem remove_snd_iff (r : Registry α) (id : BindingId) :
    (r.remove id).2 = true ↔ id ∈ r.ids := by
  have hall : (r.without id).size = r.size ↔ ∀ b ∈ r.bindings, b.id ≠ id := by
    rw [size, size, without, List.length_filter_eq_length_iff]
    simp only [decide_eq_true_eq]
  rw [remove, bne_iff_ne, ne_eq, hall, ids, List.mem_map]
  simp

end Registry

/-! ## 4. Answers -/

/-- **A registry answers by its calls.** However insertions, removals, look-ups and listings are
    mixed, the ids handed out are `0`, `1`, `2` and so on, so none is handed out twice, whatever was
    removed; the next one is the number of insertions. What is listed is in the order of the ids,
    each binding with all it was inserted with: exactly the bindings inserted and not removed since.
    A look-up finds the one listed under its id; a removal says whether there is one, and takes out
    this one alone. -/
theorem registry_follows_calls (calls : List (RegistryCall α)) :
    let r := (Registry.empty : Registry α).after calls
    ((Registry.empty : Registry α).answers calls).filterMap RegistryAnswer.handedOut? =
        List.range (RegistryCall.insertions calls) ∧
      r.nextId = RegistryCall.insertions calls ∧
      r.ids.Pairwise (· < ·) ∧
      (∀ b, b ∈ r.bindings ↔ RegistryCall.Keeps calls b) ∧
      ∀ id, (∀ b, r.find? id = some b ↔ b ∈ r.bindings ∧ b.id = id) ∧
        ((r.remove id).2 = true ↔ id ∈ r.ids) ∧
        (r.remove id).1 = ⟨r.bindings.filter (·.id ≠ id), r.nextId⟩ := by
  intro r
  have h := Registry.follows_after calls
  exact ⟨Registry.handedOut_answers calls, h.nextId, h.ordered.rising, h.mem_iff,
    fun id => ⟨fun b => h.ordered.find?_eq_some_iff, r.remove_snd_iff id, rfl⟩⟩

/-- The id of a binding that is gone is not handed out again, and to remove it again says so. -/
example (p : Pattern) :
    let calls : List (RegistryCall Nat) := [.insert "KeyA" p .simultaneous 1, .remove 0,
      .insert "KeyB" p .sequential 2, .get 0, .remove 0]
    Registry.empty.answers calls = [.inserted 0, .removed true, .inserted 1, .got none,
      .removed false] := rfl

end KeyBindings
