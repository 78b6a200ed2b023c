import Mathlib.Data.List.Forall2
import PhpTypes.Proofs.Registry.Renumber
import PhpTypes.Proofs.Signature.Requests

/-!
# Merging signatures

Every routine is resolved in a registry of its own, and its signature is then moved to the registry
of the project. `Signature.mergeAll` does so for a list of routines. The merged signatures say what
the routines said on their own, and the project holds the types they mention, each once
(`Signature.Merged`).

The order of the routines does not matter: in any other order the project is the same up to the
numbers of its slots and the spelling of its classes (`Signature.mergeAll_of_perm`).
-/

namespace PhpTypes

/-- The masks denote the same type, each in its registry. -/
def Registry.SameType (r r' : Registry) (m m' : Mask) : Prop :=
  r'.typeOf m' = r.typeOf m

/-- Two parameters agree in everything but their masks, which correspond to each other. -/
structure ResolvedParameter.Agree (R : Mask → Mask → Prop) (p p' : ResolvedParameter) : Prop where
  name_eq : p'.name = p.name
  mask : R p.mask p'.mask
  provenance_eq : p'.provenance = p.provenance

namespace Signature

/-- Two signatures agree in everything but their masks, which correspond to each other in order. -/
structure Agree (R : Mask → Mask → Prop) (s s' : Signature) : Prop where
  parameters : List.Forall₂ (ResolvedParameter.Agree R) s.parameters s'.parameters
  returns : R s.returns s'.returns
  returnProvenance_eq : s'.returnProvenance = s.returnProvenance

variable {R R' R'' : Mask → Mask → Prop} {s s' s'' : Signature}

/-- The masks of the parameters are masks of the signature. -/
theorem mask_mem_masks {p : ResolvedParameter} (hp : p ∈ s.parameters) : p.mask ∈ s.masks :=
  List.mem_append_left _ (List.mem_map_of_mem hp)

/-- The mask of the result is a mask of the signature. -/
theorem returns_mem_masks (s : Signature) : s.returns ∈ s.masks :=
  List.mem_append_right _ (List.mem_singleton_self _)

/-- A signature has no masks but those of its parameters and that of its result. -/
theorem mem_masks {m : Mask} :
    m ∈ s.masks ↔ (∃ p ∈ s.parameters, p.mask = m) ∨ m = s.returns := by
  rw [masks, List.mem_append, List.mem_map, List.mem_singleton]

/-- Signatures that agree in one way agree in every way that follows from it. -/
theorem Agree.mono (h : s.Agree R s') (himp : ∀ m ∈ s.masks, ∀ m' ∈ s'.masks, R m m' → R' m m') :
    s.Agree R' s' where
  parameters := by
    refine List.forall₂_iff_get.mpr ⟨h.parameters.length_eq, fun i hi hi' => ?_⟩
    have hagree := h.parameters.get hi hi'
    exact ⟨hagree.name_eq, himp _ (mask_mem_masks (List.get_mem _ _)) _
      (mask_mem_masks (List.get_mem _ _)) hagree.mask, hagree.provenance_eq⟩
  returns := himp _ s.returns_mem_masks _ s'.returns_mem_masks h.returns
  returnProvenance_eq := h.returnProvenance_eq

/-- Signatures that agree with a third one agree with each other. -/
theorem Agree.of_common (h : s.Agree R s') (h' : s.Agree R' s'')
    (hcommon : ∀ m m' m'', R m m' → R' m m'' → R'' m' m'') : s'.Agree R'' s'' where
  parameters := by
    refine List.forall₂_iff_get.mpr
      ⟨h.parameters.length_eq.symm.trans h'.parameters.length_eq, fun i hi' hi'' => ?_⟩
    have hi : i < s.parameters.length := by rwa [h.parameters.length_eq]
    have hagree := h.parameters.get hi hi'
    have hagree' := h'.parameters.get hi hi''
    exact ⟨hagree'.name_eq.trans hagree.name_eq.symm, hcommon _ _ _ hagree.mask hagree'.mask,
      hagree'.provenance_eq.trans hagree.provenance_eq.symm⟩
  returns := hcommon _ _ _ h.returns h'.returns
  returnProvenance_eq := h'.returnProvenance_eq.trans h.returnProvenance_eq.symm

/-! ## Moving one signature -/

variable {source target : Registry}

/-- Parameters are moved from the first to the last. -/
theorem transferParameters_cons {p : ResolvedParameter} {rest moved : List ResolvedParameter}
    {m' : Mask} {r₁ r₂ : Registry} (hmove : target.transfer source p.mask = .ok (m', r₁))
    (hmoves : transferParameters source rest r₁ = .ok (moved, r₂)) :
    transferParameters source (p :: rest) target = .ok ({ p with mask := m' } :: moved, r₂) := by
  rw [transferParameters, hmove]
  show (transferParameters source rest r₁ >>= _) = _
  rw [hmoves]
  rfl

/-- A signature is moved by moving its parameters and then its result. -/
theorem transfer_eq {moved : List ResolvedParameter} {returns : Mask} {r₁ r₂ : Registry}
    (hmoves : transferParameters source s.parameters target = .ok (moved, r₁))
    (hmove : r₁.transfer source s.returns = .ok (returns, r₂)) :
    s.transfer target source = .ok ({ s with parameters := moved, returns }, r₂) := by
  rw [transfer, hmoves]
  show (r₁.transfer source s.returns >>= _) = _
  rw [hmove]
  rfl

/-- Parameters that are moved keep their types, and the target receives what their masks depend
on. -/
theorem transferParameters_spec (hsource : source.WellFormed) (htarget : target.WellFormed)
    {parameters : List ResolvedParameter} (howns : ∀ p ∈ parameters, source.Owns p.mask) :
    ∃ moved r', transferParameters source parameters target = .ok (moved, r') ∧
      target.Receives (fun t => ∃ p ∈ parameters, source.DependsOn p.mask t) r' ∧
      (∀ p ∈ moved, r'.Owns p.mask) ∧
      List.Forall₂ (ResolvedParameter.Agree (source.SameType r')) parameters moved := by
  induction parameters generalizing target with
  | nil =>
    refine ⟨[], target, rfl, (Registry.Receives.refl htarget).congr fun t => ?_,
      fun p hp => absurd hp List.not_mem_nil, .nil⟩
    simp
  | cons p rest ih =>
    obtain ⟨m', r₁, hmove, hreceives, hownsM, htype⟩ :=
      Registry.exists_transfer_receives htarget hsource (howns p List.mem_cons_self)
    obtain ⟨moved, r₂, hmoves, hreceives', hownsRest, hagree⟩ :=
      ih hreceives.wellFormed fun p hp => howns p (List.mem_cons_of_mem _ hp)
    refine ⟨{ p with mask := m' } :: moved, r₂, transferParameters_cons hmove hmoves, ?_, ?_,
      .cons ?_ hagree⟩
    · refine (hreceives.trans hreceives').congr fun t => ?_
      rw [List.exists_mem_cons_iff]
    · intro q hq
      rcases List.mem_cons.mp hq with rfl | hq
      · exact hownsM.extend hreceives'.grows
      · exact hownsRest q hq
    · -- The parameters behind it are moved later and leave its type alone.
      refine ⟨rfl, ?_, rfl⟩
      show r₂.typeOf m' = _
      rw [Registry.typeOf_extend hreceives.wellFormed hreceives'.grows hownsM, htype]

/-- A signature that is moved keeps its types, and the target receives what its masks depend on. -/
theorem transfer_spec (hsource : source.WellFormed) (htarget : target.WellFormed)
    (howns : ∀ m ∈ s.masks, source.Owns m) :
    ∃ s' r', s.transfer target source = .ok (s', r') ∧
      target.Receives (fun t => ∃ m ∈ s.masks, source.DependsOn m t) r' ∧
      (∀ m ∈ s'.masks, r'.Owns m) ∧ s.Agree (source.SameType r') s' := by
  obtain ⟨moved, r₁, hmoves, hreceives, hownsMoved, hagree⟩ :=
    transferParameters_spec hsource htarget fun p hp => howns p.mask (mask_mem_masks hp)
  obtain ⟨returns, r₂, hmove, hreceives', hownsReturns, htype⟩ :=
    Registry.exists_transfer_receives hreceives.wellFormed hsource
      (howns s.returns s.returns_mem_masks)
  refine ⟨{ s with parameters := moved, returns }, r₂, transfer_eq hmoves hmove, ?_, ?_, ?_, htype,
    rfl⟩
  · refine (hreceives.trans hreceives').congr fun t => ?_
    constructor
    · rintro (⟨p, hp, ht⟩ | ht)
      · exact ⟨p.mask, mask_mem_masks hp, ht⟩
      · exact ⟨s.returns, s.returns_mem_masks, ht⟩
    · rintro ⟨m, hm, ht⟩
      rcases mem_masks.mp hm with ⟨p, hp, rfl⟩ | rfl
      · exact .inl ⟨p, hp, ht⟩
      · exact .inr ht
  · intro m hm
    rcases mem_masks.mp hm with ⟨p, hp, rfl⟩ | rfl
    · exact (hownsMoved p hp).extend hreceives'.grows
    · exact hownsReturns
  · refine List.forall₂_iff_get.mpr ⟨hagree.length_eq, fun i hi hi' => ?_⟩
    have hparameter := hagree.get hi hi'
    refine ⟨hparameter.name_eq, ?_, hparameter.provenance_eq⟩
    have howned := hownsMoved _ (List.get_mem moved ⟨i, hi'⟩)
    show r₂.typeOf _ = _
    rw [Registry.typeOf_extend hreceives.wellFormed hreceives'.grows howned]
    exact hparameter.mask

/-! ## Merging many -/

/-- Resolves every routine in a registry of its own and merges its signature into a project. -/
def mergeAll : List Routine → Registry → Except TransferError (List Signature × Registry)
  | [], project => .ok ([], project)
  | routine :: rest, project => do
    let (merged, project) ←
      (resolve routine .empty).1.transfer project (resolve routine .empty).2
    let (others, project) ← mergeAll rest project
    return (merged :: others, project)

/-- The signature of the routine depends on the type. -/
def Mentions (routine : Routine) (t : PhpType) : Prop :=
  ∃ m ∈ (resolve routine .empty).1.masks, (resolve routine .empty).2.DependsOn m t

/-- The merged signature says in the project what the routine says on its own. -/
def Renders (project : Registry) (routine : Routine) (s : Signature) : Prop :=
  (resolve routine .empty).1.Agree ((resolve routine .empty).2.SameType project) s

/-- The result of a merge: every merged signature says what its routine says, and the project holds
exactly the types that some routine mentions, each once. -/
structure Merged (routines : List Routine) (merged : List Signature) (project : Registry) :
    Prop where
  signatures : List.Forall₂ (Renders project) routines merged
  owns : ∀ s ∈ merged, ∀ m ∈ s.masks, project.Owns m
  slotType_injOn : ∀ slot slot', slot < project.size → slot' < project.size →
    project.slotType slot = project.slotType slot' → slot = slot'
  hasEntry_iff : ∀ t, project.HasEntry t ↔ ∃ routine ∈ routines, Mentions routine t

/-- What a merged signature says does not change when the project grows. -/
theorem Renders.extend {project r' : Registry} {routine : Routine} (h : Renders project routine s)
    (hwf : project.WellFormed) (hext : project.Extends r') (howns : ∀ m ∈ s.masks, project.Owns m) :
    Renders r' routine s := by
  refine Agree.mono h fun m _ m' hm' htype => ?_
  show r'.typeOf m' = _
  rw [Registry.typeOf_extend hwf hext (howns m' hm')]
  exact htype

/-- Routines are merged from the first to the last. -/
theorem mergeAll_cons {project r₁ r₂ : Registry} {routine : Routine} {rest : List Routine}
    {merged : List Signature}
    (hmove : (resolve routine .empty).1.transfer project (resolve routine .empty).2 = .ok (s, r₁))
    (hmerge : mergeAll rest r₁ = .ok (merged, r₂)) :
    mergeAll (routine :: rest) project = .ok (s :: merged, r₂) := by
  rw [mergeAll, hmove]
  show (mergeAll rest r₁ >>= _) = _
  rw [hmerge]
  rfl

/-- Merging never fails; the project receives what the routines mention. -/
theorem mergeAll_spec {project : Registry} (h : project.WellFormed) (routines : List Routine) :
    ∃ merged r', mergeAll routines project = .ok (merged, r') ∧
      project.Receives (fun t => ∃ routine ∈ routines, Mentions routine t) r' ∧
      (∀ s ∈ merged, ∀ m ∈ s.masks, r'.Owns m) ∧
      List.Forall₂ (Renders r') routines merged := by
  induction routines generalizing project with
  | nil =>
    refine ⟨[], project, rfl, (Registry.Receives.refl h).congr fun t => ?_,
      fun s hs => absurd hs List.not_mem_nil, .nil⟩
    simp
  | cons routine rest ih =>
    obtain ⟨hwf, -, howns⟩ := resolve_sound .empty routine
    obtain ⟨s, r₁, hmove, hreceives, hownsS, hrenders⟩ := transfer_spec hwf h howns
    obtain ⟨merged, r₂, hmerge, hreceives', hownsRest, hall⟩ := ih hreceives.wellFormed
    refine ⟨s :: merged, r₂, mergeAll_cons hmove hmerge, ?_, ?_, .cons ?_ hall⟩
    · refine (hreceives.trans hreceives').congr fun t => ?_
      rw [List.exists_mem_cons_iff]
      rfl
    · intro s' hs' m hm
      rcases List.mem_cons.mp hs' with rfl | hs'
      · exact (hownsS m hm).extend hreceives'.grows
      · exact hownsRest s' hs' m hm
    · exact Renders.extend hrenders hreceives.wellFormed hreceives'.grows hownsS

/-- Routines are merged faithfully into an empty project. -/
theorem exists_merged (routines : List Routine) :
    ∃ merged project, mergeAll routines .empty = .ok (merged, project) ∧ project.WellFormed ∧
      Merged routines merged project := by
  obtain ⟨merged, project, hmerge, hreceives, howns, hall⟩ :=
    mergeAll_spec Registry.WellFormed.empty routines
  refine ⟨merged, project, hmerge, hreceives.wellFormed, hall, howns, ?_, fun t => ?_⟩
  · intro slot slot' hlt hlt' hsame
    exact Registry.slotType_injOn hreceives.wellFormed hlt hlt' hsame
  · rw [hreceives.hasEntry_iff]
    refine or_iff_right ?_
    rintro ⟨slot, hlt, -⟩
    exact absurd hlt (Nat.not_lt_zero slot)

/-- The signatures of one routine in two projects denote the same types. -/
theorem Renders.agree {project project' : Registry} {routine : Routine}
    (h : Renders project routine s) (h' : Renders project' routine s') :
    s.Agree (project.SameType project') s' :=
  Agree.of_common h h' fun _ _ _ htype htype' => htype'.trans htype.symm

/-- **The order in which routines are merged does not matter.** In both orders the merge loses and
repeats nothing; the two projects hold the same types, and a renumbering of slots takes one to the
other, together with the signatures of every routine. -/
theorem mergeAll_of_perm {routines routines' : List Routine} (hperm : routines.Perm routines') :
    ∃ merged project merged' project' f,
      mergeAll routines .empty = .ok (merged, project) ∧
      mergeAll routines' .empty = .ok (merged', project') ∧
      Merged routines merged project ∧ Merged routines' merged' project' ∧
      (∀ t, project.HasEntry t ↔ project'.HasEntry t) ∧
      Registry.Renumbers f project project' ∧
      ∀ routine s s', (routine, s) ∈ routines.zip merged → (routine, s') ∈ routines'.zip merged' →
        s.Agree (project.SameType project') s' ∧ s.Agree (Mask.Renumbered f) s' := by
  obtain ⟨merged, project, hmerge, hwf, hmerged⟩ := exists_merged routines
  obtain ⟨merged', project', hmerge', hwf', hmerged'⟩ := exists_merged routines'
  have hsame : ∀ t, project.HasEntry t ↔ project'.HasEntry t := by
    intro t
    rw [hmerged.hasEntry_iff, hmerged'.hasEntry_iff]
    exact exists_congr fun routine => and_congr_left' hperm.mem_iff
  obtain ⟨f, hrenumbers, hmasks⟩ := Registry.exists_renumbers hwf hwf' hsame
  refine ⟨merged, project, merged', project', f, hmerge, hmerge', hmerged, hmerged', hsame,
    hrenumbers, fun routine s s' hs hs' => ?_⟩
  have hrenders := (List.forall₂_iff_zip.mp hmerged.signatures).2 hs
  have hrenders' := (List.forall₂_iff_zip.mp hmerged'.signatures).2 hs'
  have hagree := Renders.agree hrenders hrenders'
  refine ⟨hagree, hagree.mono fun m hm m' hm' htype => ?_⟩
  exact hmasks m m' (hmerged.owns s (List.of_mem_zip hs).2 m hm)
    (hmerged'.owns s' (List.of_mem_zip hs').2 m' hm') htype

/-- A function with one parameter of the given type. -/
def hinted (hint : String) : Routine where
  name := "f"
  className := none
  parameters := [{ name := "$x", hint := some hint, variadic := false }]
  returnHint := none
  doc := none
  scope := .empty

/-- Two spellings of a class, one of them in an array. -/
theorem mergeAll_of_perm_two_spellings :
    [hinted "Foo[]", hinted "foo|int"].Perm [hinted "foo|int", hinted "Foo[]"] ∧
    ∃ merged project merged' project' f,
      mergeAll [hinted "Foo[]", hinted "foo|int"] .empty = .ok (merged, project) ∧
      mergeAll [hinted "foo|int", hinted "Foo[]"] .empty = .ok (merged', project') ∧
      (∀ t, project.HasEntry t ↔ project'.HasEntry t) ∧ Registry.Renumbers f project project' := by
  have hswap : [hinted "Foo[]", hinted "foo|int"].Perm [hinted "foo|int", hinted "Foo[]"] :=
    .swap _ _ _
  obtain ⟨merged, project, merged', project', f, hmerge, hmerge', -, -, hsame, hrenumbers, -⟩ :=
    mergeAll_of_perm hswap
  exact ⟨hswap, merged, project, merged', project', f, hmerge, hmerge', hsame, hrenumbers⟩

end Signature

end PhpTypes
