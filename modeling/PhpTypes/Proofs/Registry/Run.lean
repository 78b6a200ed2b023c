import Mathlib.Algebra.Order.BigOperators.Group.Finset
import Mathlib.Data.List.Induction
import PhpTypes.Registry.Transfer
import PhpTypes.Proofs.Registry.Unfold

/-!
# Runs of the stack of tasks

Moving a mask works off a stack of tasks. `Transfer.Runs` says that this loop ends, without any
bound on its steps, and lists the arrays that it takes apart. In a source whose arrays refer to
earlier entries only, the loop ends for every slot and every target (`Transfer.exists_done`), within
the bound that the mover sets itself, and it takes no array apart twice: an array that was taken
apart has a memo before it can come to the top of the stack again.

What a run does to the target is left open. A property of states that is kept by recording single
entries (`Transfer.Kept`) is kept by every run.

The induction is on the slot. `Transfer.Done` says what becomes of a run that starts with visits of
some slots. It counts the steps against `Transfer.pending`, the work that slots without a memo may
still cause; this is what keeps the run within its bound.
-/

namespace PhpTypes

namespace Transfer

variable {source : Registry} {root : Mask} {P : State → Prop} {s s' s'' : State}

/-! ## The loop -/

/-- The arrays that a step takes apart: those it puts on the stack to be finished later. -/
def opened (next : List Task) : List Nat :=
  next.filterMap fun task =>
    match task with
    | .visit _ => none
    | .finish slot => some slot

/-- The loop on a stack of tasks ends. In so many steps it takes the state `s` to `s'`, and on the
way it takes the given arrays apart, in this order. -/
inductive Runs (source : Registry) : List Task → State → Nat → List Nat → State → Prop
  | nil (s : State) : Runs source [] s 0 [] s
  | cons {task : Task} {next rest : List Task} {s s' s'' : State} {steps : Nat} {arrays : List Nat}
      (hstep : step source task s = .ok (next, s'))
      (hrest : Runs source (next ++ rest) s' steps arrays s'') :
      Runs source (task :: rest) s (steps + 1) (opened next ++ arrays) s''

/-- Tasks below others on the stack are done afterwards. -/
theorem Runs.append {tasks rest : List Task} {n k : Nat} {arrays arrays' : List Nat}
    (h : Runs source tasks s n arrays s') (h' : Runs source rest s' k arrays' s'') :
    Runs source (tasks ++ rest) s (n + k) (arrays ++ arrays') s'' := by
  induction h with
  | nil s =>
    rw [Nat.zero_add]
    exact h'
  | @cons task next below s t s' n arrays hstep _ ih =>
    have hrest := ih h'
    rw [List.append_assoc] at hrest
    rw [Nat.add_right_comm, List.append_assoc]
    exact .cons hstep hrest

/-- Without tasks the loop ends at once, whatever its bound. -/
theorem run_nil (fuel : Nat) (s : State) : run source fuel [] s = .ok s := by
  cases fuel <;> rfl

/-- Any bound that is not below the number of steps is enough. -/
theorem Runs.run_eq {tasks : List Task} {n fuel : Nat} {arrays : List Nat}
    (h : Runs source tasks s n arrays s') (hle : n ≤ fuel) : run source fuel tasks s = .ok s' := by
  induction h generalizing fuel with
  | nil s => exact run_nil fuel s
  | @cons task next rest s t s' n arrays hstep _ ih =>
    obtain ⟨left, rfl⟩ := Nat.exists_eq_add_of_le' (Nat.le_trans (Nat.le_add_left 1 n) hle)
    rw [run, hstep]
    exact ih (Nat.le_of_succ_le_succ hle)

/-- The given slots are moved one after the other, each by a loop of its own that starts with one
visit and keeps within the bound; on the way the given arrays are taken apart. -/
inductive Moves (source : Registry) : List Nat → State → List Nat → State → Prop
  | nil (s : State) : Moves source [] s [] s
  | cons {slot steps : Nat} {slots arrays arrays' : List Nat} {s s' s'' : State}
      (hruns : Runs source [.visit slot] s steps arrays s') (hsteps : steps ≤ stepBound source)
      (hrest : Moves source slots s' arrays' s'') :
      Moves source (slot :: slots) s (arrays ++ arrays') s''

/-- The mover goes through the slots as such moves say. -/
theorem Moves.foldlM_eq {slots arrays : List Nat} (h : Moves source slots s arrays s') :
    slots.foldlM (moveSlot source) s = .ok s' := by
  induction h with
  | nil s => rfl
  | cons hruns hsteps _ ih =>
    rw [List.foldlM_cons, moveSlot, hruns.run_eq hsteps]
    exact ih

/-! ## Single steps -/

/-- Recording an entry asks the target for it. -/
theorem record_target (s : State) (slot : Nat) (add : Registry → Mask × Registry) :
    (s.record slot add).target = (add s.target).2 := rfl

/-- Recording an entry notes the answer under its slot. -/
theorem record_memo (s : State) (slot : Nat) (add : Registry → Mask × Registry) :
    (s.record slot add).memo = s.memo.insert slot (add s.target).1 := rfl

/-- Recording an entry notes its slot and forgets none. -/
theorem mem_record {slot n : Nat} {add : Registry → Mask × Registry} :
    n ∈ (s.record slot add).memo ↔ n = slot ∨ n ∈ s.memo := by
  rw [record_memo, Std.HashMap.mem_insert, beq_iff_eq, eq_comm]

/-- The slots of an element mask that have no memo yet, the highest one first. -/
def missing (s : State) (e : Mask) : List Nat :=
  (e.slots.toList.filter fun inner => !s.memo.contains inner).reverse

/-- Exactly the slots of the element that have no memo are missing. -/
theorem mem_missing {e : Mask} {inner : Nat} :
    inner ∈ missing s e ↔ inner ∈ e.slots ∧ inner ∉ s.memo := by
  rw [missing, List.mem_reverse, List.mem_filter, SlotSet.mem_toList, Bool.not_eq_true',
    ← Bool.not_eq_true, Std.HashMap.contains_iff_mem]

/-- No more slots are missing than the element has. -/
theorem length_missing_le (s : State) (e : Mask) :
    (missing s e).length ≤ e.slots.toList.length := by
  rw [missing, List.length_reverse]
  exact List.length_filter_le _ _

/-- Visits of elements in front of the end of an array take that array apart. -/
theorem opened_visits (slots : List Nat) (slot : Nat) :
    opened (slots.map .visit ++ [.finish slot]) = [slot] := by
  have hvisits : opened (slots.map .visit) = [] := by
    rw [opened, List.filterMap_map]
    exact List.filterMap_eq_nil_iff.mpr fun _ _ => rfl
  rw [opened, List.filterMap_append]
  exact congrArg (· ++ [slot]) hvisits

/-- A visit of a slot with a memo does nothing. -/
theorem step_visit_of_mem {slot : Nat} (hmem : slot ∈ s.memo) :
    step source (.visit slot) s = .ok ([], s) := by
  rw [step, if_pos (Std.HashMap.contains_iff_mem.mpr hmem)]

/-- A visit of a class records it at once. -/
theorem step_visit_class {slot : Nat} {name : String}
    (hd : source.descriptor? slot = some (.classNamed name)) (hnew : slot ∉ s.memo) :
    step source (.visit slot) s = .ok ([], s.record slot (·.classMask name)) := by
  rw [step, if_neg (fun h => hnew (Std.HashMap.contains_iff_mem.mp h))]
  simp only [hd]

/-- A visit of an array puts its missing elements on the stack, and its own end below them. -/
theorem step_visit_array {slot : Nat} {e : Mask}
    (hd : source.descriptor? slot = some (.arrayOf e)) (hnew : slot ∉ s.memo) :
    step source (.visit slot) s = .ok ((missing s e).map .visit ++ [.finish slot], s) := by
  rw [step, if_neg (fun h => hnew (Std.HashMap.contains_iff_mem.mp h))]
  simp only [hd, missing]

/-- At its end an array is recorded with the element that the memo gives. -/
theorem step_finish_array {slot : Nat} {e : Mask}
    (hd : source.descriptor? slot = some (.arrayOf e)) (hnew : slot ∉ s.memo) :
    step source (.finish slot) s =
      .ok ([], s.record slot (·.arrayOf (element s.memo e))) := by
  rw [step, if_neg (fun h => hnew (Std.HashMap.contains_iff_mem.mp h))]
  simp only [hd]

/-- A slot that the source never gave out cannot be visited. -/
theorem step_visit_foreign {slot : Nat} (hlt : source.size ≤ slot) (hnew : slot ∉ s.memo) :
    step source (.visit slot) s = .error (.foreignSlot slot source.size) := by
  rw [step, if_neg (fun h => hnew (Std.HashMap.contains_iff_mem.mp h))]
  simp only [Registry.descriptor?_eq_none hlt]

/-! ## Counting steps -/

/-- The tasks that moving an entry may add: one for each slot of its element and one for itself. -/
def cost (source : Registry) (slot : Nat) : Nat :=
  ((source.descriptor? slot).map fun d => 1 + d.slots.toList.length).getD 0

/-- The tasks that the entries without a memo may still add. -/
def pending (source : Registry) (memo : Std.HashMap Nat Mask) : Nat :=
  ∑ slot ∈ (Finset.range source.size).filter (· ∉ memo), cost source slot

/-- To move an entry for the first time does away with the tasks it may add. -/
theorem pending_insert {memo : Std.HashMap Nat Mask} {slot : Nat} (hlt : slot < source.size)
    (hnew : slot ∉ memo) (m : Mask) :
    pending source (memo.insert slot m) + cost source slot = pending source memo := by
  have herase : (Finset.range source.size).filter (· ∉ memo.insert slot m) =
      ((Finset.range source.size).filter (· ∉ memo)).erase slot := by
    ext n
    simp only [Finset.mem_filter, Finset.mem_erase, Std.HashMap.mem_insert, beq_iff_eq, not_or]
    constructor
    · rintro ⟨hn, hne, hold⟩
      exact ⟨Ne.symm hne, hn, hold⟩
    · rintro ⟨hne, hn, hold⟩
      exact ⟨hn, Ne.symm hne, hold⟩
  have hmem : slot ∈ (Finset.range source.size).filter (· ∉ memo) :=
    Finset.mem_filter.mpr ⟨Finset.mem_range.mpr hlt, hnew⟩
  rw [pending, pending, herase, Finset.sum_erase_add _ _ hmem]

/-- The bound that the mover sets itself is the sum of the tasks that the entries may add. -/
private theorem foldl_cost (ds : List Descriptor) (n : Nat) :
    ds.foldl (fun n d => n + 1 + d.slots.toList.length) n =
      n + ∑ i ∈ Finset.range ds.length, (ds[i]?.map fun d => 1 + d.slots.toList.length).getD 0 := by
  induction ds using List.reverseRecOn with
  | nil => simp
  | append_singleton ds d ih =>
    have hprefix : ∑ i ∈ Finset.range ds.length,
          ((ds ++ [d])[i]?.map fun d => 1 + d.slots.toList.length).getD 0 =
        ∑ i ∈ Finset.range ds.length, (ds[i]?.map fun d => 1 + d.slots.toList.length).getD 0 := by
      refine Finset.sum_congr rfl fun i hi => ?_
      rw [List.getElem?_append_left (Finset.mem_range.mp hi)]
    rw [List.foldl_append, ih, List.length_append, List.length_singleton, Finset.sum_range_succ,
      hprefix]
    simp
    omega

/-- The bound on the steps for one slot covers everything that may be pending. -/
theorem pending_le_stepBound (source : Registry) (memo : Std.HashMap Nat Mask) :
    1 + pending source memo ≤ stepBound source := by
  have hbound : stepBound source = 1 + ∑ slot ∈ Finset.range source.size, cost source slot := by
    rw [stepBound, ← Array.foldl_toList, foldl_cost, Array.length_toList]
    refine congrArg (1 + ·) (Finset.sum_congr rfl fun slot _ => ?_)
    rw [cost, Registry.descriptor?_eq_toList]
  have hle : pending source memo ≤ ∑ slot ∈ Finset.range source.size, cost source slot :=
    Finset.sum_le_sum_of_subset (Finset.filter_subset _ _)
  omega

/-! ## What a run does to the memo -/

/-- From `s` to `s'` the memo only grew, and the given arrays, each listed once, are those whose
entries were moved. -/
structure Opens (source : Registry) (s s' : State) (arrays : List Nat) : Prop where
  keeps : ∀ n ∈ s.memo, n ∈ s'.memo
  nodup : arrays.Nodup
  mem_iff : ∀ n, n ∈ arrays ↔
    n ∉ s.memo ∧ n ∈ s'.memo ∧ ∃ e, source.descriptor? n = some (.arrayOf e)

/-- Where nothing is moved, nothing is taken apart. -/
theorem Opens.refl (source : Registry) (s : State) : Opens source s s [] where
  keeps _ hn := hn
  nodup := .nil
  mem_iff _ := ⟨fun h => absurd h List.not_mem_nil, fun ⟨hnew, hmem, _⟩ => absurd hmem hnew⟩

/-- What is taken apart in two goes comes one after the other. -/
theorem Opens.trans {arrays arrays' : List Nat} (h : Opens source s s' arrays)
    (h' : Opens source s' s'' arrays') : Opens source s s'' (arrays ++ arrays') where
  keeps n hn := h'.keeps n (h.keeps n hn)
  nodup := by
    refine List.nodup_append.mpr ⟨h.nodup, h'.nodup, ?_⟩
    rintro n hn n' hn' rfl
    exact ((h'.mem_iff n).mp hn').1 ((h.mem_iff n).mp hn).2.1
  mem_iff n := by
    rw [List.mem_append, h.mem_iff, h'.mem_iff]
    constructor
    · rintro (⟨hnew, hmem, harray⟩ | ⟨hnew, hmem, harray⟩)
      · exact ⟨hnew, h'.keeps n hmem, harray⟩
      · exact ⟨fun hold => hnew (h.keeps n hold), hmem, harray⟩
    · rintro ⟨hnew, hmem, harray⟩
      by_cases hmid : n ∈ s'.memo
      · exact .inl ⟨hnew, hmid, harray⟩
      · exact .inr ⟨hmid, hmem, harray⟩

/-- A class is moved without taking anything apart. -/
theorem Opens.record_class {slot : Nat} {name : String}
    (hd : source.descriptor? slot = some (.classNamed name)) (add : Registry → Mask × Registry) :
    Opens source s (s.record slot add) [] where
  keeps _ hn := mem_record.mpr (.inr hn)
  nodup := .nil
  mem_iff n := by
    refine ⟨fun h => absurd h List.not_mem_nil, ?_⟩
    rintro ⟨hnew, hmem, e, he⟩
    rcases mem_record.mp hmem with rfl | hold
    · cases hd.symm.trans he
    · exact absurd hold hnew

/-- An array is taken apart before its elements are moved and recorded after them. -/
theorem Opens.record_array {slot : Nat} {e : Mask} {arrays : List Nat}
    (h : Opens source s s' arrays) (hd : source.descriptor? slot = some (.arrayOf e))
    (hnew : slot ∉ s'.memo) (add : Registry → Mask × Registry) :
    Opens source s (s'.record slot add) (slot :: arrays) where
  keeps n hn := mem_record.mpr (.inr (h.keeps n hn))
  nodup := List.nodup_cons.mpr ⟨fun hslot => hnew ((h.mem_iff slot).mp hslot).2.1, h.nodup⟩
  mem_iff n := by
    rw [List.mem_cons, h.mem_iff, mem_record]
    constructor
    · rintro (rfl | ⟨hold, hmem, harray⟩)
      · exact ⟨fun hold => hnew (h.keeps n hold), .inl rfl, e, hd⟩
      · exact ⟨hold, .inr hmem, harray⟩
    · rintro ⟨hold, rfl | hmem, harray⟩
      · exact .inl rfl
      · exact .inr ⟨hold, hmem, harray⟩

/-! ## Runs from visits -/

/-- The property is kept by recording an entry that the root depends on and that has no memo yet: a
class at any time, an array once its elements have been moved. -/
structure Kept (source : Registry) (root : Mask) (P : State → Prop) : Prop where
  ofClass : ∀ {s : State} {slot : Nat} {name : String}, P s → source.Reaches root slot →
    source.descriptor? slot = some (.classNamed name) → slot ∉ s.memo →
    P (s.record slot (·.classMask name))
  ofArray : ∀ {s : State} {slot : Nat} {e : Mask}, P s → source.Reaches root slot →
    source.descriptor? slot = some (.arrayOf e) → slot ∉ s.memo →
    (∀ inner ∈ e.slots, inner ∈ s.memo) → P (s.record slot (·.arrayOf (element s.memo e)))

/-- Visiting some slots takes the state `s` to `s'` in the given number of steps and takes the given
arrays apart. All of the slots are moved, nothing at or above the bound is moved, and the steps are
paid for. -/
structure Done (source : Registry) (P : State → Prop) (slots : List Nat) (bound : Nat)
    (s s' : State) (steps : Nat) (arrays : List Nat) : Prop where
  holds : P s'
  opens : Opens source s s' arrays
  moved : ∀ slot ∈ slots, slot ∈ s'.memo
  below : ∀ n ∈ s'.memo, n ∈ s.memo ∨ n < bound
  paid : steps + pending source s'.memo ≤ slots.length + pending source s.memo
  runs : Runs source (slots.map .visit) s steps arrays s'

/-- Visits follow each other. -/
private theorem exists_done_of_forall {bound : Nat} (slots : List Nat)
    (hvisit : ∀ slot ∈ slots, ∀ s, P s →
      ∃ s' steps arrays, Done source P [slot] bound s s' steps arrays)
    (hs : P s) : ∃ s' steps arrays, Done source P slots bound s s' steps arrays := by
  induction slots generalizing s with
  | nil =>
    exact ⟨s, 0, [], hs, .refl source s, fun _ hslot => absurd hslot List.not_mem_nil,
      fun _ hn => .inl hn, Nat.le_refl _, .nil s⟩
  | cons slot slots ih =>
    -- The first visit leaves a state that the others start from.
    obtain ⟨s₁, steps₁, arrays₁, h₁⟩ := hvisit slot List.mem_cons_self s hs
    obtain ⟨s₂, steps₂, arrays₂, h₂⟩ :=
      ih (fun n hn => hvisit n (List.mem_cons_of_mem _ hn)) h₁.holds
    refine ⟨s₂, steps₁ + steps₂, arrays₁ ++ arrays₂, h₂.holds, h₁.opens.trans h₂.opens, ?_, ?_, ?_,
      h₁.runs.append h₂.runs⟩
    · intro n hn
      rcases List.mem_cons.mp hn with rfl | hn
      · exact h₂.opens.keeps n (h₁.moved n (List.mem_singleton_self n))
      · exact h₂.moved n hn
    · intro n hn
      rcases h₂.below n hn with hn | hlt
      · exact h₁.below n hn
      · exact .inr hlt
    · have hpaid₁ := h₁.paid
      have hpaid₂ := h₂.paid
      rw [List.length_singleton] at hpaid₁
      rw [List.length_cons]
      omega

/-- A visit of an entry that has been moved before does nothing. -/
private theorem exists_done_of_mem {slot : Nat} (hs : P s) (hmem : slot ∈ s.memo) :
    ∃ s' steps arrays, Done source P [slot] (slot + 1) s s' steps arrays := by
  refine ⟨s, 1, [], hs, .refl source s, ?_, fun _ hn => .inl hn, Nat.le_refl _,
    .cons (step_visit_of_mem hmem) (.nil s)⟩
  intro n hn
  rwa [List.mem_singleton.mp hn]

/-- A visit of a class records it. -/
private theorem exists_done_of_class (hP : Kept source root P) {slot : Nat} {name : String}
    (hd : source.descriptor? slot = some (.classNamed name)) (hreach : source.Reaches root slot)
    (hs : P s) (hnew : slot ∉ s.memo) :
    ∃ s' steps arrays, Done source P [slot] (slot + 1) s s' steps arrays := by
  refine ⟨_, 1, [], hP.ofClass hs hreach hd hnew, .record_class hd _, ?_, ?_, ?_,
    .cons (step_visit_class hd hnew) (.nil _)⟩
  · intro n hn
    exact mem_record.mpr (.inl (List.mem_singleton.mp hn))
  · intro n hn
    rcases mem_record.mp hn with rfl | hn
    · exact .inr (Nat.lt_succ_self n)
    · exact .inl hn
  · have hpending := pending_insert (Registry.lt_size_of_descriptor? hd) hnew
      (s.target.classMask name).1
    rw [record_memo, List.length_singleton]
    omega

/-- After the elements of an array, the array itself is still to be moved, and then it can be. -/
private theorem Done.array_ready {slot steps : Nat} {e : Mask} {arrays : List Nat}
    (h : Done source P (missing s e) slot s s' steps arrays) (hnew : slot ∉ s.memo) :
    slot ∉ s'.memo ∧ ∀ inner ∈ e.slots, inner ∈ s'.memo := by
  constructor
  · intro hslot
    rcases h.below slot hslot with hold | hself
    · exact hnew hold
    · exact Nat.lt_irrefl slot hself
  · intro inner hinner
    by_cases hold : inner ∈ s.memo
    · exact h.opens.keeps inner hold
    · exact h.moved inner (mem_missing.mpr ⟨hinner, hold⟩)

/-- A visit of an array takes it apart, moves its elements and then records it. -/
private theorem Done.runs_array {slot steps : Nat} {e : Mask} {arrays : List Nat}
    (h : Done source P (missing s e) slot s s' steps arrays)
    (hd : source.descriptor? slot = some (.arrayOf e)) (hnew : slot ∉ s.memo) :
    Runs source [.visit slot] s (steps + 1 + 1) (slot :: arrays)
      (s'.record slot (·.arrayOf (element s'.memo e))) := by
  have hfinish : Runs source [.finish slot] s' 1 []
      (s'.record slot (·.arrayOf (element s'.memo e))) :=
    .cons (step_finish_array hd (h.array_ready hnew).1) (.nil _)
  have hrest := h.runs.append hfinish
  rw [List.append_nil] at hrest
  rw [← List.append_nil (_ ++ [Task.finish slot])] at hrest
  have hruns := Runs.cons (step_visit_array hd hnew) hrest
  rwa [opened_visits] at hruns

/-- A visit of an array can be done if visits of the slots in its element can. -/
private theorem exists_done_of_array (hP : Kept source root P) {slot : Nat} {e : Mask}
    (hd : source.descriptor? slot = some (.arrayOf e)) (hreach : source.Reaches root slot)
    (hs : P s) (hnew : slot ∉ s.memo)
    (hvisit : ∀ inner ∈ e.slots, ∀ s, P s →
      ∃ s' steps arrays, Done source P [inner] slot s s' steps arrays) :
    ∃ s' steps arrays, Done source P [slot] (slot + 1) s s' steps arrays := by
  obtain ⟨s₁, steps₁, arrays₁, h₁⟩ := exists_done_of_forall (missing s e)
    (fun inner hinner => hvisit inner (mem_missing.mp hinner).1) hs
  obtain ⟨hnew₁, helements⟩ := h₁.array_ready hnew
  refine ⟨_, steps₁ + 1 + 1, slot :: arrays₁, hP.ofArray h₁.holds hreach hd hnew₁ helements,
    h₁.opens.record_array hd hnew₁ _, ?_, ?_, ?_, h₁.runs_array hd hnew⟩
  · intro n hn
    exact mem_record.mpr (.inl (List.mem_singleton.mp hn))
  · intro n hn
    rcases mem_record.mp hn with rfl | hn
    · exact .inr (Nat.lt_succ_self n)
    · rcases h₁.below n hn with hold | hbelow
      · exact .inl hold
      · exact .inr (Nat.lt_succ_of_lt hbelow)
  · -- The work of this entry pays for the visits of its elements and for its own end.
    have hpaid := h₁.paid
    have hlength := length_missing_le s e
    have hpending := pending_insert (Registry.lt_size_of_descriptor? hd) hnew₁
      (s₁.target.arrayOf (element s₁.memo e)).1
    have hcost : cost source slot = 1 + e.slots.toList.length := by
      rw [cost, hd]
      rfl
    rw [record_memo, List.length_singleton]
    omega

/-- A visit of a slot moves its entry. The induction is on the slot, as elements come before their
array. -/
theorem exists_done (hsource : source.WellFormed) (hP : Kept source root P) (slot : Nat)
    (hlt : slot < source.size) (hreach : source.Reaches root slot) (hs : P s) :
    ∃ s' steps arrays, Done source P [slot] (slot + 1) s s' steps arrays := by
  induction slot using Nat.strong_induction_on generalizing s with
  | _ slot ih =>
    by_cases hmem : slot ∈ s.memo
    · exact exists_done_of_mem hs hmem
    · obtain ⟨d, hd⟩ := Registry.exists_descriptor?_of_lt hlt
      cases d with
      | classNamed name => exact exists_done_of_class hP hd hreach hs hmem
      | arrayOf e =>
        refine exists_done_of_array hP hd hreach hs hmem fun inner hinner s hs => ?_
        have hbelow := hsource.element_lt slot e hd inner hinner
        obtain ⟨s', steps, arrays, h⟩ := ih inner hbelow (Nat.lt_trans hbelow hlt)
          (.element hreach hd hinner) hs
        refine ⟨s', steps, arrays, { h with below := fun n hn => ?_ }⟩
        rcases h.below n hn with hold | hle
        · exact .inl hold
        · exact .inr (by omega)

/-! ## Several slots -/

/-- **Slots of the source are always moved.** Each loop ends within the bound, what recording keeps
is kept, and the arrays that are taken apart are listed once. -/
theorem exists_moves (hsource : source.WellFormed) (hP : Kept source root P) (slots : List Nat)
    (hlt : ∀ slot ∈ slots, slot < source.size) (hreach : ∀ slot ∈ slots, source.Reaches root slot)
    (hs : P s) :
    ∃ s' arrays, Moves source slots s arrays s' ∧ P s' ∧ Opens source s s' arrays ∧
      ∀ slot ∈ slots, slot ∈ s'.memo := by
  induction slots generalizing s with
  | nil => exact ⟨s, [], .nil s, hs, .refl source s, fun _ h => absurd h List.not_mem_nil⟩
  | cons slot slots ih =>
    obtain ⟨s₁, steps, arrays₁, h₁⟩ := exists_done hsource hP slot (hlt slot List.mem_cons_self)
      (hreach slot List.mem_cons_self) hs
    obtain ⟨s₂, arrays₂, hmoves, hs₂, hopens, hmoved⟩ := ih
      (fun n hn => hlt n (List.mem_cons_of_mem _ hn))
      (fun n hn => hreach n (List.mem_cons_of_mem _ hn)) h₁.holds
    have hsteps : steps ≤ stepBound source := by
      have hpaid := h₁.paid
      have hbound := pending_le_stepBound source s.memo
      rw [List.length_singleton] at hpaid
      omega
    refine ⟨s₂, arrays₁ ++ arrays₂, .cons h₁.runs hsteps hmoves, hs₂, h₁.opens.trans hopens, ?_⟩
    intro n hn
    rcases List.mem_cons.mp hn with rfl | hn
    · exact hopens.keeps n (h₁.moved n (List.mem_singleton_self n))
    · exact hmoved n hn

end Transfer

namespace Registry

/-- Once the slots of a mask have been moved, the mask is put together from the memo. -/
theorem transfer_of_moves {target source : Registry} {m : Mask} {arrays : List Nat}
    {s : Transfer.State} (h : Transfer.Moves source m.slots.toList ⟨target, ∅⟩ arrays s) :
    target.transfer source m = .ok (Transfer.element s.memo m, s.target) := by
  rw [transfer, h.foldlM_eq]
  rfl

end Registry

end PhpTypes
