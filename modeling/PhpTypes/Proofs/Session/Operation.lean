import PhpTypes.Proofs.Session.Answers
import PhpTypes.Proofs.Signature.Merge

/-!
# Operations on one context

An `Operation` is something that can happen to one context, be it alone or together with another
one: it answers a request, takes part in a move on either side, or does either with the masks of a
whole signature. An operation is allowed if it is only given masks of the context they belong to.

Allowed operations succeed. They lead from a reachable context to a reachable context that has all
entries and masks of the first one and settles the requests that the operation answered
(`Operation.exists_run`).
-/

namespace PhpTypes

/-! ## Sessions side by side -/

namespace Session

variable {s s' s'' : Session}

/-- Runs of a session may follow each other. -/
theorem Steps.trans (h : Steps s s') (h' : Steps s' s'') : Steps s s'' := by
  induction h' with
  | refl => exact h
  | tail _ hstep ih => exact ih.tail hstep

/-- The contexts of a session stand behind those that are put in front of it. -/
theorem getElem?_append_add (u s : Session) (i : Nat) : (u ++ s)[u.length + i]? = s[i]? := by
  rw [List.getElem?_append_right (Nat.le_add_right _ _), Nat.add_sub_cancel_left]

/-- Changing a context of a session changes it behind whatever is put in front. -/
theorem append_set (u s : Session) (i : Nat) (c : Context) :
    u ++ s.set i c = (u ++ s).set (u.length + i) c := by
  rw [List.set_append_right _ _ (Nat.le_add_right _ _), Nat.add_sub_cancel_left]

/-- An operation can be carried out beside other contexts. -/
theorem Step.append_left (u : Session) (h : Step s s') : Step (u ++ s) (u ++ s') := by
  cases h with
  | create =>
    rw [← List.append_assoc]
    exact .create _
  | clone hc =>
    rw [← List.append_assoc]
    exact .clone (List.mem_append_right u hc)
  | request hc hq =>
    rw [append_set]
    rw [← getElem?_append_add u] at hc
    exact .request hc hq
  | transfer hne htarget hsource hm h =>
    rw [append_set]
    rw [← getElem?_append_add u] at htarget hsource
    exact .transfer (fun heq => hne (Nat.add_left_cancel heq)) htarget hsource hm h
  | resolveAndTransfer hne htarget hsource h =>
    rw [append_set, append_set]
    rw [← getElem?_append_add u] at htarget hsource
    exact .resolveAndTransfer (fun heq => hne (Nat.add_left_cancel heq)) htarget hsource h

/-- A whole run can be carried out beside other contexts. -/
theorem Steps.append_left (u : Session) (h : Steps s s') : Steps (u ++ s) (u ++ s') := by
  induction h with
  | refl => exact .refl
  | tail _ hstep ih => exact ih.tail (hstep.append_left u)

end Session

namespace Context

variable {c target source : Context}

/-- Any two reachable contexts are different places of one session. -/
theorem Reachable.exists_session (ht : target.Reachable) (hs : source.Reachable) :
    ∃ (s : Session) (i j : Nat), s.Reachable ∧ i ≠ j ∧ s[i]? = some target ∧
      s[j]? = some source := by
  obtain ⟨u, hu, htarget⟩ := ht
  obtain ⟨s, hs, hsource⟩ := hs
  obtain ⟨i, hi⟩ := List.mem_iff_getElem?.mp htarget
  obtain ⟨j, hj⟩ := List.mem_iff_getElem?.mp hsource
  have hlt : i < u.length := (List.getElem?_eq_some_iff.mp hi).1
  refine ⟨u ++ s, i, u.length + j, hu.trans ?_, by omega, ?_, ?_⟩
  · have happend := hs.append_left u
    rwa [List.append_nil] at happend
  · rw [List.getElem?_append_left hlt, hi]
  · rw [Session.getElem?_append_add, hj]

/-! ## Reachable contexts -/

/-- The context after an operation on its registry has answered with several masks. -/
def obtainAll (c : Context) (answer : List Mask × Registry) : Context where
  registry := answer.2
  masks := answer.1.reverse ++ c.masks

/-- Masks are obtained one by one. -/
theorem obtainAll_cons (c : Context) (m : Mask) (ms : List Mask) (r r' : Registry) :
    c.obtainAll (m :: ms, r') = (c.obtain (m, r)).obtainAll (ms, r') := by
  simp only [obtainAll, obtain, List.reverse_cons, List.append_assoc, List.singleton_append]

/-- A context that receives a mask stays reachable. -/
theorem Reachable.receive (ht : target.Reachable) (hs : source.Reachable) {m : Mask}
    (hm : m ∈ source.masks) {answer : Mask × Registry}
    (h : target.registry.transfer source.registry m = .ok answer) :
    (target.obtain answer).Reachable := by
  obtain ⟨s, i, j, hreach, hne, htarget, hsource⟩ := ht.exists_session hs
  have hlt : i < s.length := (List.getElem?_eq_some_iff.mp htarget).1
  exact ⟨_, hreach.tail (.transfer hne htarget hsource hm h), List.mem_set hlt _⟩

/-- Two contexts, in one of which annotations are read for the other, stay reachable. -/
theorem Reachable.resolveAndTransfer (ht : target.Reachable) (hs : source.Reachable)
    {scope : Option Scope} {fullyQualified : Bool} {texts : List String} {m : Mask}
    {target' source' : Registry}
    (h : target.registry.resolveAndTransfer source.registry scope fullyQualified texts =
      .ok (m, target', source')) :
    (target.obtain (m, target')).Reachable ∧
      ({ source with registry := source' } : Context).Reachable := by
  obtain ⟨s, i, j, hreach, hne, htarget, hsource⟩ := ht.exists_session hs
  have hlt : i < s.length := (List.getElem?_eq_some_iff.mp htarget).1
  have hlt' : j < s.length := (List.getElem?_eq_some_iff.mp hsource).1
  have hreach' := hreach.tail (.resolveAndTransfer hne htarget hsource h)
  constructor
  · have hat : ((s.set i (target.obtain (m, target'))).set j
        { source with registry := source' })[i]? = some (target.obtain (m, target')) := by
      rw [List.getElem?_set_ne hne.symm, List.getElem?_set_self hlt]
    exact ⟨_, hreach', List.mem_of_getElem? hat⟩
  · exact ⟨_, hreach', List.mem_set (by rwa [List.length_set]) _⟩

/-- A context that answers several requests stays reachable. -/
theorem Reachable.answerAll (hc : c.Reachable) {qs : List Request}
    (hqs : ∀ q ∈ qs, q.inputs = []) :
    (c.obtainAll (Request.runAll qs c.registry)).Reachable := by
  induction qs generalizing c with
  | nil => exact hc
  | cons q rest ih =>
    have hanswer : (c.answer q).Reachable :=
      hc.answer (Request.forall_mem_inputs (hqs q List.mem_cons_self))
    have hrest := ih hanswer fun p hp => hqs p (List.mem_cons_of_mem q hp)
    rw [Request.runAll, obtainAll_cons c _ _ (q.run c.registry).2]
    exact hrest

/-- A context that receives the parameters of a signature stays reachable. -/
theorem Reachable.receiveParameters (ht : target.Reachable) (hs : source.Reachable)
    {parameters : List ResolvedParameter} (hmem : ∀ p ∈ parameters, p.mask ∈ source.masks) :
    ∃ moved r, Signature.transferParameters source.registry parameters target.registry =
        .ok (moved, r) ∧ (target.obtainAll (moved.map (·.mask), r)).Reachable := by
  induction parameters generalizing target with
  | nil => exact ⟨[], target.registry, rfl, ht⟩
  | cons p rest ih =>
    have hm := hmem p List.mem_cons_self
    obtain ⟨m', r₁, hmove, -⟩ := Registry.exists_transfer_receives ht.sound.wellFormed
      hs.sound.wellFormed (hs.sound.owns p.mask hm)
    obtain ⟨moved, r₂, hmoves, hreach⟩ :=
      ih (ht.receive hs hm hmove) fun p hp => hmem p (List.mem_cons_of_mem _ hp)
    refine ⟨_, r₂, Signature.transferParameters_cons hmove hmoves, ?_⟩
    rw [List.map_cons, obtainAll_cons target m' _ r₁]
    exact hreach

/-- A context that resolves the signature of a routine stays reachable. -/
theorem Reachable.resolveSignature (hc : c.Reachable) (routine : Routine) :
    (c.obtainAll ((Signature.resolve routine c.registry).1.masks,
      (Signature.resolve routine c.registry).2)).Reachable := by
  rw [Signature.resolve_eq_runAll]
  exact hc.answerAll fun q hq => Signature.inputs_of_mem_requests hq

/-- A context that receives a signature stays reachable. -/
theorem Reachable.receiveSignature (ht : target.Reachable) (hs : source.Reachable) {s s' : Signature}
    {r' : Registry} (hmem : ∀ m ∈ s.masks, m ∈ source.masks)
    (h : s.transfer target.registry source.registry = .ok (s', r')) :
    (target.obtainAll (s'.masks, r')).Reachable := by
  obtain ⟨moved, r₁, hmoves, hreach⟩ :=
    ht.receiveParameters hs fun p hp => hmem p.mask (Signature.mask_mem_masks hp)
  have hm := hmem s.returns s.returns_mem_masks
  obtain ⟨returns, r₂, hmove, -⟩ := Registry.exists_transfer_receives hreach.sound.wellFormed
    hs.sound.wellFormed (hs.sound.owns s.returns hm)
  obtain ⟨rfl, rfl⟩ : { s with parameters := moved, returns } = s' ∧ r₂ = r' :=
    Prod.mk.inj (Except.ok.inj ((Signature.transfer_eq hmoves hmove).symm.trans h))
  have hlast : target.obtainAll (moved.map (·.mask) ++ [returns], r₂) =
      (target.obtainAll (moved.map (·.mask), r₁)).obtain (returns, r₂) := by
    simp only [obtainAll, obtain, List.reverse_append, List.reverse_singleton, List.cons_append,
      List.nil_append]
  rw [Signature.masks, hlast]
  exact hreach.receive hs hm hmove

end Context

/-! ## Operations -/

/-- Something that happens to a context. Another context that takes part in it is given as it is at
that time. -/
inductive Operation where
  | request (q : Request)
  /-- Obtains the mask that a mask of the source is moved to. -/
  | receive (source : Context) (m : Mask)
  /-- Has a mask moved to the target. -/
  | send (target : Context) (m : Mask)
  /-- Has annotations read in the source and obtains their union. -/
  | receiveReading (source : Context) (scope : Option Scope) (fullyQualified : Bool)
      (texts : List String)
  /-- Reads annotations and has their union moved to the target. -/
  | sendReading (target : Context) (scope : Option Scope) (fullyQualified : Bool)
      (texts : List String)
  | resolveSignature (routine : Routine)
  | receiveSignature (source : Context) (s : Signature)
  | sendSignature (target : Context) (s : Signature)

namespace Operation

/-- The operation is only given masks of the context that they belong to, and any other context is
reachable. -/
def Allowed (c : Context) : Operation → Prop
  | request q => ∀ m ∈ q.inputs, m ∈ c.masks
  | receive source m => source.Reachable ∧ m ∈ source.masks
  | send target m => target.Reachable ∧ m ∈ c.masks
  | receiveReading source _ _ _ => source.Reachable
  | sendReading target _ _ _ => target.Reachable
  | resolveSignature _ => True
  | receiveSignature source s => source.Reachable ∧ ∀ m ∈ s.masks, m ∈ source.masks
  | sendSignature target s => target.Reachable ∧ ∀ m ∈ s.masks, m ∈ c.masks

/-- The context after the operation. -/
def run (c : Context) : Operation → Except TransferError Context
  | request q => .ok (c.answer q)
  | receive source m => do
    let answer ← c.registry.transfer source.registry m
    return c.obtain answer
  | send target m => do
    let _ ← target.registry.transfer c.registry m
    return c
  | receiveReading source scope fullyQualified texts => do
    let (mask, registry, _) ←
      c.registry.resolveAndTransfer source.registry scope fullyQualified texts
    return c.obtain (mask, registry)
  | sendReading target scope fullyQualified texts => do
    let (_, _, registry) ←
      target.registry.resolveAndTransfer c.registry scope fullyQualified texts
    return { c with registry }
  | resolveSignature routine =>
    let (s, registry) := Signature.resolve routine c.registry
    .ok (c.obtainAll (s.masks, registry))
  | receiveSignature source s => do
    let (s, registry) ← s.transfer c.registry source.registry
    return c.obtainAll (s.masks, registry)
  | sendSignature target s => do
    let _ ← s.transfer target.registry c.registry
    return c

/-- The requests that the context answers during the operation, with the masks. -/
def answers (c : Context) : Operation → List (Request × Mask)
  | request q => q.answers c.registry
  | sendReading _ scope fullyQualified texts =>
    Request.answers (.resolveAll scope fullyQualified texts) c.registry
  | resolveSignature routine => Request.answersAll (Signature.requests routine) c.registry
  | _ => []

end Operation

namespace Context

/-- The context `c'` is a later state of `c`: it has all entries and masks of `c`, and it settles
what has been answered in between. -/
structure Continues (c : Context) (answered : List (Request × Mask)) (c' : Context) : Prop where
  reachable : c'.Reachable
  grows : c.registry.Extends c'.registry
  masks_subset : c.masks ⊆ c'.masks
  settles : ∀ entry ∈ answered, c'.registry.Settles entry

variable {c c' c'' target source : Context}

/-- A later state before which nothing has been answered. -/
theorem Continues.of_grows (hc : c'.Reachable) (hext : c.registry.Extends c'.registry)
    (hsub : c.masks ⊆ c'.masks) : c.Continues [] c' where
  reachable := hc
  grows := hext
  masks_subset := hsub
  settles _ h := absurd h List.not_mem_nil

/-- A context continues itself, as long as nothing happens. -/
theorem Continues.refl (hc : c.Reachable) : c.Continues [] c :=
  .of_grows hc (.refl _) (List.Subset.refl _)

/-- Later states of later states are later states, and the answers add up. -/
theorem Continues.trans {answered answered' : List (Request × Mask)}
    (h : c.Continues answered c') (h' : c'.Continues answered' c'') :
    c.Continues (answered ++ answered') c'' where
  reachable := h'.reachable
  grows := h.grows.trans h'.grows
  masks_subset := List.Subset.trans h.masks_subset h'.masks_subset
  settles entry hentry := by
    rcases List.mem_append.mp hentry with hold | hnew
    · exact (h.settles entry hold).extend h.reachable.sound.wellFormed
        h'.reachable.sound.wellFormed h'.grows
    · exact h'.settles entry hnew

/-! ## One operation -/

/-- Answering a request leads to a later state that settles the answer. -/
theorem Reachable.continues_answer (hc : c.Reachable) {q : Request}
    (hq : ∀ m ∈ q.inputs, m ∈ c.masks) :
    c.Continues (q.answers c.registry) (c.answer q) := by
  have howns : ∀ m ∈ q.inputs, c.registry.Owns m := fun m hm => hc.sound.owns m (hq m hm)
  have hyields := q.run_yields hc.sound.wellFormed howns
  refine ⟨hc.answer hq, hyields.grows, List.subset_cons_self _ _, fun entry hentry => ?_⟩
  exact Request.settles_of_mem_answers hc.sound.wellFormed hyields.wellFormed howns (.refl _) hentry

/-- Receiving a mask from another context succeeds and leads to a later state. -/
theorem Reachable.exists_receive (ht : target.Reachable) (hs : source.Reachable) {m : Mask}
    (hm : m ∈ source.masks) :
    ∃ answer, target.registry.transfer source.registry m = .ok answer ∧
      target.Continues [] (target.obtain answer) := by
  obtain ⟨m', r', hmove, hreceives, -⟩ := Registry.exists_transfer_receives ht.sound.wellFormed
    hs.sound.wellFormed (hs.sound.owns m hm)
  have hreach := ht.receive hs hm hmove
  exact ⟨(m', r'), hmove, .of_grows hreach hreceives.grows (List.subset_cons_self _ _)⟩

/-- Reading annotations in one context for another succeeds and leads to later states of both, and
the one in which they were read settles the answer. -/
theorem Reachable.exists_resolveAndTransfer (ht : target.Reachable) (hs : source.Reachable)
    (scope : Option Scope) (fullyQualified : Bool) (texts : List String) :
    ∃ m target' source',
      target.registry.resolveAndTransfer source.registry scope fullyQualified texts =
        .ok (m, target', source') ∧
      target.Continues [] (target.obtain (m, target')) ∧
      source.Continues (Request.answers (.resolveAll scope fullyQualified texts) source.registry)
        { source with registry := source' } := by
  have hread : source.registry.Yields (TypeExpr.annotationsType scope fullyQualified texts)
      (TypeExpr.resolveAll scope fullyQualified texts source.registry) :=
    TypeExpr.resolveAll_yields hs.sound.wellFormed texts
  obtain ⟨⟨m, target'⟩, hmove, hyields⟩ := Registry.resolveAndTransfer_yields ht.sound.wellFormed
    hs.sound.wellFormed scope fullyQualified texts
  obtain ⟨hreach, hreach'⟩ := ht.resolveAndTransfer hs hmove
  refine ⟨m, target', _, hmove, .of_grows hreach hyields.grows (List.subset_cons_self _ _),
    hreach', hread.grows, List.Subset.refl _, fun entry hentry => ?_⟩
  exact Request.settles_of_mem_answers hs.sound.wellFormed hread.wellFormed
    (Request.forall_mem_inputs rfl) (.refl _) hentry

/-- Resolving a signature leads to a later state that settles all of its requests. -/
theorem Reachable.continues_resolveSignature (hc : c.Reachable) (routine : Routine) :
    c.Continues (Request.answersAll (Signature.requests routine) c.registry)
      (c.obtainAll ((Signature.resolve routine c.registry).1.masks,
        (Signature.resolve routine c.registry).2)) := by
  obtain ⟨hwf, hext, -⟩ := Signature.resolve_sound hc.sound.wellFormed routine
  refine ⟨hc.resolveSignature routine, hext, List.subset_append_right _ _, fun entry hentry => ?_⟩
  refine Request.settles_of_mem_answersAll hc.sound.wellFormed hwf
    (fun q hq => Signature.inputs_of_mem_requests hq) ?_ hentry
  rw [← Signature.resolve_eq_runAll]
  exact .refl _

/-- Receiving a signature from another context succeeds and leads to a later state. -/
theorem Reachable.exists_receiveSignature (ht : target.Reachable) (hs : source.Reachable)
    {s : Signature} (hmem : ∀ m ∈ s.masks, m ∈ source.masks) :
    ∃ s' r', s.transfer target.registry source.registry = .ok (s', r') ∧
      target.Continues [] (target.obtainAll (s'.masks, r')) := by
  obtain ⟨s', r', hmove, hreceives, -⟩ := Signature.transfer_spec hs.sound.wellFormed
    ht.sound.wellFormed fun m hm => hs.sound.owns m (hmem m hm)
  have hreach := ht.receiveSignature hs hmem hmove
  exact ⟨s', r', hmove, .of_grows hreach hreceives.grows (List.subset_append_right _ _)⟩

end Context

/-- **An allowed operation succeeds and leads to a later state** in which everything that the
operation answered is settled. -/
theorem Operation.exists_run {c : Context} (hc : c.Reachable) {op : Operation}
    (hop : op.Allowed c) : ∃ c', op.run c = .ok c' ∧ c.Continues (op.answers c) c' := by
  -- A context that is only read from stays as it is.
  cases op with
  | request q => exact ⟨_, rfl, hc.continues_answer hop⟩
  | receive source m =>
    obtain ⟨answer, hmove, hcontinues⟩ := hc.exists_receive hop.1 hop.2
    exact ⟨_, by rw [run, hmove]; rfl, hcontinues⟩
  | send target m =>
    obtain ⟨answer, hmove, -⟩ := hop.1.exists_receive hc hop.2
    exact ⟨_, by rw [run, hmove]; rfl, .refl hc⟩
  | receiveReading source scope fullyQualified texts =>
    obtain ⟨m, target', source', hmove, hcontinues, -⟩ :=
      hc.exists_resolveAndTransfer hop scope fullyQualified texts
    exact ⟨_, by rw [run, hmove]; rfl, hcontinues⟩
  | sendReading target scope fullyQualified texts =>
    obtain ⟨m, target', source', hmove, -, hcontinues⟩ :=
      Context.Reachable.exists_resolveAndTransfer hop hc scope fullyQualified texts
    exact ⟨_, by rw [run, hmove]; rfl, hcontinues⟩
  | resolveSignature routine => exact ⟨_, rfl, hc.continues_resolveSignature routine⟩
  | receiveSignature source s =>
    obtain ⟨s', r', hmove, hcontinues⟩ := hc.exists_receiveSignature hop.1 hop.2
    exact ⟨_, by rw [run, hmove]; rfl, hcontinues⟩
  | sendSignature target s =>
    obtain ⟨s', r', hmove, -⟩ := hop.1.exists_receiveSignature hc hop.2
    exact ⟨_, by rw [run, hmove]; rfl, .refl hc⟩

end PhpTypes
