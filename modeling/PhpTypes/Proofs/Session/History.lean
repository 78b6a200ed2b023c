import PhpTypes.Proofs.Registry.Describe
import PhpTypes.Proofs.Session.Operation

/-!
# Histories of contexts

A run is a list of operations on one context, each of them allowed where it takes place. The
reachable contexts are those that runs lead to from the empty context
(`Context.reachable_iff_exists_runs`), so each of them has a history.

Contexts only grow. What was said about an earlier state of a context is therefore true of every
later one: masks keep their texts, entries their places, and annotations their masks
(`Context.Reachable.reports_stable`). To move a mask from an earlier state into a later one gives
back the mask (`Context.Reachable.transfer_earlier`).
-/

namespace PhpTypes

namespace Context

/-- Allowed operations lead from `c` to another context, one after the other. The list holds the
requests that the context answers on the way, with their masks. -/
inductive Runs (c : Context) : List (Request × Mask) → Context → Prop where
  | refl : Runs c [] c
  | tail {answered : List (Request × Mask)} {c' c'' : Context} {op : Operation}
      (h : Runs c answered c') (hop : op.Allowed c') (hrun : op.run c' = .ok c'') :
      Runs c (answered ++ op.answers c') c''

variable {c c' : Context} {answered : List (Request × Mask)}

/-- One more request that is answered continues a run. -/
theorem Runs.answer (hruns : c.Runs answered c') {q : Request}
    (hq : ∀ m ∈ q.inputs, m ∈ c'.masks) :
    c.Runs (answered ++ q.answers c'.registry) (c'.answer q) := by
  have hallowed : (Operation.request q).Allowed c' := hq
  exact hruns.tail hallowed rfl

/-- A run from a reachable context leads to a later state of it. -/
theorem Runs.continues (hruns : c.Runs answered c') (hc : c.Reachable) :
    c.Continues answered c' := by
  induction hruns with
  | refl => exact .refl hc
  | @tail answered c' c'' op _ hop hrun ih =>
    obtain ⟨next, hnext, hcontinues⟩ := Operation.exists_run ih.reachable hop
    obtain rfl : next = c'' := Except.ok.inj (hnext.symm.trans hrun)
    exact ih.trans hcontinues

/-- A run leads to the context from the empty one. -/
def Recorded (c : Context) : Prop :=
  ∃ answered, Context.empty.Runs answered c

/-- One more operation continues a history. -/
theorem Recorded.tail (hc : c.Recorded) {op : Operation} (hop : op.Allowed c)
    (hrun : op.run c = .ok c') : c'.Recorded := by
  obtain ⟨answered, hruns⟩ := hc
  exact ⟨_, hruns.tail hop hrun⟩

end Context

/-! ## Every reachable context has a history -/

namespace Session

/-- What holds of all contexts of a session and of a new one holds after the new one has been put
in. -/
theorem forall_mem_set {s : Session} {P : Context → Prop} (h : ∀ d ∈ s, P d) (i : Nat)
    {c : Context} (hc : P c) : ∀ d ∈ s.set i c, P d := by
  intro d hd
  rcases List.mem_or_eq_of_mem_set hd with hold | rfl
  · exact h d hold
  · exact hc

/-- One operation in a session is an operation on each context that it changes. -/
theorem Step.recorded {s s' : Session} (hstep : Step s s') (hs : s.Reachable)
    (h : ∀ c ∈ s, c.Recorded) : ∀ c ∈ s', c.Recorded := by
  cases hstep with
  | create => exact List.forall_mem_append.mpr ⟨h, List.forall_mem_singleton.mpr ⟨[], .refl⟩⟩
  | clone hc => exact List.forall_mem_append.mpr ⟨h, List.forall_mem_singleton.mpr (h _ hc)⟩
  | @request i c q hc hq =>
    obtain ⟨answered, hruns⟩ := h c (List.mem_of_getElem? hc)
    exact forall_mem_set h i ⟨_, hruns.answer hq⟩
  | @transfer i j target source m answer hne htarget hsource hm hanswer =>
    have hallowed : (Operation.receive source m).Allowed target :=
      ⟨⟨s, hs, List.mem_of_getElem? hsource⟩, hm⟩
    have hrun : (Operation.receive source m).run target = .ok (target.obtain answer) := by
      rw [Operation.run, hanswer]
      rfl
    exact forall_mem_set h i ((h target (List.mem_of_getElem? htarget)).tail hallowed hrun)
  | @resolveAndTransfer i j target source scope fullyQualified texts m target' source' hne htarget
      hsource hanswer =>
    have ht : target ∈ s := List.mem_of_getElem? htarget
    have hsrc : source ∈ s := List.mem_of_getElem? hsource
    -- The operation is one of the target and one of the source at the same time.
    have hreceive : (Operation.receiveReading source scope fullyQualified texts).Allowed target :=
      ⟨s, hs, hsrc⟩
    have hsend : (Operation.sendReading target scope fullyQualified texts).Allowed source :=
      ⟨s, hs, ht⟩
    have hreceived : (Operation.receiveReading source scope fullyQualified texts).run target =
        .ok (target.obtain (m, target')) := by
      rw [Operation.run, hanswer]
      rfl
    have hsent : (Operation.sendReading target scope fullyQualified texts).run source =
        .ok { source with registry := source' } := by
      rw [Operation.run, hanswer]
      rfl
    exact forall_mem_set (forall_mem_set h i ((h target ht).tail hreceive hreceived)) j
      ((h source hsrc).tail hsend hsent)

/-- Every context of a session has a history. -/
theorem Steps.recorded {s : Session} (hsteps : Steps [] s) : ∀ c ∈ s, c.Recorded := by
  induction hsteps with
  | refl => exact fun c hc => absurd hc List.not_mem_nil
  | tail h hstep ih => exact hstep.recorded h ih

end Session

namespace Context

variable {c c' : Context} {later : List (Request × Mask)}

/-- Every reachable context has a history. -/
theorem Reachable.recorded (hc : c.Reachable) : c.Recorded := by
  obtain ⟨s, hs, hmem⟩ := hc
  exact hs.recorded c hmem

/-- The reachable contexts are those with a history. -/
theorem reachable_iff_exists_runs : c.Reachable ↔ ∃ answered, Context.empty.Runs answered c := by
  constructor
  · exact Reachable.recorded
  · rintro ⟨answered, hruns⟩
    exact (hruns.continues .empty).reachable

/-! ## Later states -/

/-- **A mask that is moved from an earlier state of a context into a later one stays as it is**, and
so does the later state. -/
theorem Reachable.transfer_earlier (hc : c.Reachable) (hruns : c.Runs later c') {m : Mask}
    (hm : m ∈ c.masks) : c'.registry.transfer c.registry m = .ok (m, c'.registry) := by
  have hlater := hruns.continues hc
  exact Registry.transfer_of_extends hlater.reachable.sound.wellFormed hc.sound.wellFormed
    hlater.grows (hc.sound.owns m hm)

/-- The later state knows more about the class, under another spelling. -/
theorem transfer_earlier_of_nested_arrays :
    ((reading "Foo[][]").answer (.resolveText none "foo[]|Bar")).registry.transfer
        (reading "Foo[][]").registry (TypeExpr.resolve none false "Foo[][]" .empty).1 =
      .ok ((TypeExpr.resolve none false "Foo[][]" .empty).1,
        ((reading "Foo[][]").answer (.resolveText none "foo[]|Bar")).registry) := by
  have hruns := (Runs.refl (c := reading "Foo[][]")).answer (q := .resolveText none "foo[]|Bar")
    (Request.forall_mem_inputs rfl)
  exact Reachable.transfer_earlier (.reading "Foo[][]") hruns List.mem_cons_self

/-- **What was said about a context stays true.** Entries are added at the end and nowhere else,
every mask has a text and keeps it, the list of all texts is continued, and every request that was
answered before, in the history of the context or since, is answered again with the same mask, and
nothing is added. -/
theorem Reachable.reports_stable (hc : c.Reachable) (hruns : c.Runs later c') :
    c.registry.descriptors.toList <+: c'.registry.descriptors.toList ∧
    (∀ m ∈ c.masks, (c.registry.describe? m).isSome = true ∧
      c'.registry.describe m = c.registry.describe m) ∧
    c.registry.snapshot <+: c'.registry.snapshot ∧
    (∃ earlier, Context.empty.Runs earlier c) ∧
    ∀ earlier, Context.empty.Runs earlier c → ∀ q m, (q, m) ∈ earlier ++ later →
      q.run c'.registry = (m, c'.registry) := by
  have hlater := hruns.continues hc
  have hwf := hc.sound.wellFormed
  have hwf' := hlater.reachable.sound.wellFormed
  refine ⟨hlater.grows, fun m hm => ?_, Registry.snapshot_extend hwf hwf' hlater.grows,
    hc.recorded, ?_⟩
  · have howns := hc.sound.owns m hm
    exact ⟨Registry.isSome_describe? hwf howns,
      Registry.describe_extend hwf hwf' hlater.grows howns⟩
  · intro earlier hearlier q m hmem
    have hall := (hearlier.continues .empty).trans hlater
    exact (hall.settles (q, m) hmem).run_eq

/-- Annotations that were read in a context, alone and in a union, are read again. -/
theorem reports_stable_of_union :
    ∃ c', (reading "Foo[]").Runs
        (Request.answers (.resolveAll none false ["foo", "Bar[]"]) (reading "Foo[]").registry) c' ∧
      (reading "Foo[]").registry.snapshot <+: c'.registry.snapshot ∧
      TypeExpr.resolve none false "Foo[]" c'.registry =
        ((TypeExpr.resolve none false "Foo[]" .empty).1, c'.registry) ∧
      TypeExpr.resolve none false "foo" c'.registry =
        ((TypeExpr.resolve none false "foo" (reading "Foo[]").registry).1, c'.registry) := by
  have hfirst := (Runs.refl (c := .empty)).answer (q := .resolve none false "Foo[]")
    (Request.forall_mem_inputs rfl)
  have hthen := (Runs.refl (c := reading "Foo[]")).answer
    (q := .resolveAll none false ["foo", "Bar[]"]) (Request.forall_mem_inputs rfl)
  obtain ⟨-, -, hsnapshot, -, hagain⟩ := Reachable.reports_stable (.reading "Foo[]") hthen
  refine ⟨_, hthen, hsnapshot, ?_, ?_⟩
  · exact hagain _ hfirst (.resolve none false "Foo[]") _ List.mem_cons_self
  · exact hagain _ hfirst (.resolve none false "foo") _
      (List.mem_append_right _ (List.mem_cons_of_mem _ List.mem_cons_self))

end Context

end PhpTypes
