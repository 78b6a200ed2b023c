import Mathlib.Logic.Function.Iterate
import PhpTypes.TypeExpr.Meaning
import PhpTypes.Proofs.Mask.Union
import PhpTypes.Proofs.Name.Qualified
import PhpTypes.Proofs.Registry.Transfer

/-!
# What annotations denote

`annotationType` reads an annotation as a type, by recursion on its text and without any registry.
`resolve_yields` shows that the mask of an annotation denotes this type, whatever the registry holds
already. In a registry that covers the type, resolving adds nothing (`resolve_snd_of_covers`).
`annotationsType` does the same for several annotations.
-/

namespace PhpTypes

/-- The type of a mask that refers to no slot; slots are left out. -/
noncomputable def Mask.kindType : Mask → PhpType
  | any => .any
  | of kinds _ => .of kinds ∅ ∅

/-- The masks of words refer to no slots. -/
theorem Keyword.slots_mask (k : Keyword) : k.mask.slots = ∅ := by
  cases k <;> rfl

/-- Looking up a word gives a mask without slots, whether the word is known or not. -/
theorem Keyword.slots_maskOf (word : String) : (Keyword.maskOf word).slots = ∅ := by
  unfold Keyword.maskOf
  cases Keyword.lookup? word with
  | none => rfl
  | some k => exact k.slots_mask

namespace Registry

variable {r : Registry}

/-- A mask without slots denotes the same type everywhere. -/
theorem yields_of_slots_eq_empty (h : r.WellFormed) {m : Mask} (hm : m.slots = ∅) :
    r.Yields m.kindType (m, r) := by
  have htype : r.typeOf m = m.kindType := by
    cases m with
    | any => exact typeOf_any r
    | of kinds slots =>
      rw [Mask.slots_of] at hm
      rw [hm]
      exact typeOf_of_slots_eq_empty h kinds
  rw [← htype]
  exact .of_owns h (.of_slots_eq_empty hm)

/-- Where nothing is known, the answer is of type `void`. -/
theorem yields_void (h : r.WellFormed) : r.Yields .void (.void, r) :=
  yields_of_slots_eq_empty h (m := .void) rfl

end Registry

namespace TypeExpr

variable {r : Registry} {scope : Option Scope} {fullyQualified : Bool}

/-- The type of a class that may be `null`. -/
noncomputable def nullableClass (name : QualifiedName) : PhpType :=
  .of (.single .null) {name.toText.foldCase} ∅

/-- The type of an annotation without array layers. -/
noncomputable def coreType (scope : Option Scope) (fullyQualified : Bool) (text : String) :
    PhpType :=
  if text.isEmpty then .void
  else
    match Keyword.lookup? text with
    | some keyword => keyword.mask.kindType
    | none =>
      if !isClassName text.toList then .void
      else
        let name := resolveName scope text fullyQualified
        if name.isPrimitive then (Keyword.maskOf name.name).kindType else nullableClass name

/-- The type of a trimmed annotation. A closing bracket at its end belongs to an array layer in one
of the two forms, or else the annotation means nothing. -/
noncomputable def trimmedType (scope : Option Scope) (fullyQualified : Bool) (text : List Char) :
    PhpType :=
  if _hend : text.getLast? = some ']' then
    match _h : unwrap? text with
    | some element => .arrayOf (trimmedType scope fullyQualified (Text.trim element))
    | none => .void
  else coreType scope fullyQualified (.ofList text)
termination_by text.length
decreasing_by
  have hne : text ≠ [] := by
    rintro rfl
    cases ‹_ = some ']'›
  exact Nat.lt_of_le_of_lt (Text.length_trim_le _) (length_lt_of_unwrap? hne ‹_›)

/-- The type of an annotation. -/
noncomputable def annotationType (scope : Option Scope) (fullyQualified : Bool) (text : String) :
    PhpType :=
  trimmedType scope fullyQualified (Text.trim text.toList)

/-- The union of the types of several annotations; `void` if there are none. -/
noncomputable def annotationsType (scope : Option Scope) (fullyQualified : Bool)
    (texts : List String) : PhpType :=
  texts.foldl (fun t text => t ∪ annotationType scope fullyQualified text) .void

/-- Peeling the layers first and wrapping afterwards gives the same type. -/
theorem trimmedType_eq_iterate (text : List Char) :
    trimmedType scope fullyQualified text =
      PhpType.arrayOf^[(peelTrimmed text).2]
        (((peelTrimmed text).1.map fun core => coreType scope fullyQualified (.ofList core)).getD
          .void) := by
  fun_induction peelTrimmed text with
  | case1 text hend element h core layers hpeel ih =>
    rw [trimmedType, dif_pos hend]
    split
    · next found hfound =>
      obtain rfl : found = element := Option.some.inj (hfound.symm.trans h)
      rw [ih, hpeel, Function.iterate_succ_apply']
    · next hnone => simp [h] at hnone
  | case2 text hend h =>
    rw [trimmedType, dif_pos hend]
    split
    · next found hfound => simp [h] at hfound
    · rfl
  | case3 text hend =>
    rw [trimmedType, dif_neg hend]
    rfl

/-! ## One annotation -/

/-- The mask of a class denotes the class, or the class and `null`. -/
theorem nominalMask_yields (h : r.WellFormed) {name : QualifiedName}
    (hname : name.toText.toList.head? ≠ some '\\') (allowNull : Bool) :
    r.Yields (if allowNull then nullableClass name else .of ∅ {name.toText.foldCase} ∅)
      (r.nominalMask name allowNull) := by
  have hclass := (Registry.classMask_yields h hname).1
  cases allowNull with
  | false => exact hclass
  | true =>
    refine ⟨hclass.wellFormed, hclass.grows, hclass.owns.union (.ofKind .null), ?_⟩
    show (r.classMask name.toText).2.typeOf ((r.classMask name.toText).1 ∪ .ofKind .null) = _
    have hkinds : ∅ ∪ KindSet.single .null = KindSet.single .null := KindSet.ext fun k => by simp
    rw [Registry.typeOf_union hclass.wellFormed hclass.owns (.ofKind .null), hclass.typeOf_eq,
      Registry.typeOf_ofKind hclass.wellFormed, PhpType.of_union_of, hkinds]
    simp [nullableClass]

/-- The mask of an annotation without layers denotes its type. -/
theorem resolveCore_yields (h : r.WellFormed) (text : String) :
    r.Yields (coreType scope fullyQualified text) (resolveCore scope fullyQualified text r) := by
  unfold coreType resolveCore
  split
  · exact Registry.yields_void h
  · cases Keyword.lookup? text with
    | some keyword => exact Registry.yields_of_slots_eq_empty h keyword.slots_mask
    | none =>
      dsimp only
      split
      · exact Registry.yields_void h
      · split
        · exact Registry.yields_of_slots_eq_empty h (Keyword.slots_maskOf _)
        · exact nominalMask_yields h (head?_toText_resolveName scope text fullyQualified) true

/-- The outermost layer is wrapped last. -/
theorem wrap_succ (layers : Nat) (answer : Mask × Registry) :
    wrap (layers + 1) answer = (wrap layers answer).2.arrayOf (wrap layers answer).1 := rfl

/-- Wrapping a mask in layers wraps its type. -/
theorem wrap_yields {t : PhpType} {answer : Mask × Registry} (h : r.Yields t answer)
    (layers : Nat) : r.Yields (PhpType.arrayOf^[layers] t) (wrap layers answer) := by
  induction layers with
  | zero => exact h
  | succ layers ih =>
    have hlayer := (Registry.arrayOf_yields ih.wellFormed ih.owns).1
    rw [ih.typeOf_eq] at hlayer
    rw [Function.iterate_succ_apply', wrap_succ]
    exact ⟨hlayer.wellFormed, ih.grows.trans hlayer.grows, hlayer.owns, hlayer.typeOf_eq⟩

/-- **The mask of an annotation denotes its type.** The type depends on the text and the scope only,
not on what the registry holds. -/
theorem resolve_yields (h : r.WellFormed) (text : String) :
    r.Yields (annotationType scope fullyQualified text) (resolve scope fullyQualified text r) := by
  rw [annotationType, trimmedType_eq_iterate, resolve, peel_eq]
  dsimp only
  refine wrap_yields ?_ _
  cases (peelTrimmed (Text.trim text.toList)).1 with
  | none => exact Registry.yields_void h
  | some core => exact resolveCore_yields h (.ofList core)

/-! ## Resolving without adding entries -/

/-- To resolve an annotation without layers whose type is covered adds nothing. -/
theorem resolveCore_snd_of_covers (h : r.WellFormed) {text : String}
    (hcovers : r.Covers (coreType scope fullyQualified text)) :
    (resolveCore scope fullyQualified text r).2 = r := by
  unfold coreType at hcovers
  unfold resolveCore
  split
  · rfl
  · next hempty =>
    rw [if_neg hempty] at hcovers
    split
    · rfl
    · next hlookup =>
      simp only [hlookup] at hcovers
      split
      · rfl
      · next hclass =>
        rw [if_neg hclass] at hcovers
        dsimp only at hcovers ⊢
        split
        · rfl
        · next hprimitive =>
          rw [if_neg hprimitive] at hcovers
          exact Registry.classMask_snd_of_covers h
            (head?_toText_resolveName scope text fullyQualified) hcovers

/-- To wrap a mask in layers whose type is covered adds nothing. -/
theorem wrap_snd_of_covers {t : PhpType} {answer : Mask × Registry} (h : r.Yields t answer)
    (hsame : r.Covers t → answer.2 = r) (layers : Nat)
    (hcovers : r.Covers (PhpType.arrayOf^[layers] t)) (hwf : r.WellFormed) :
    (wrap layers answer).2 = r := by
  induction layers with
  | zero => exact hsame hcovers
  | succ layers ih =>
    rw [Function.iterate_succ_apply'] at hcovers
    have hlayers := wrap_yields h layers
    have hinner : (wrap layers answer).2 = r := ih (.of_arrayOf hwf hcovers)
    have howns := hlayers.owns
    have htype := hlayers.typeOf_eq
    rw [hinner] at howns htype
    rw [wrap_succ, hinner]
    rw [← htype] at hcovers
    exact Registry.arrayOf_snd_of_covers hwf howns hcovers

/-- To resolve an annotation whose type is covered adds nothing. -/
theorem resolve_snd_of_covers (h : r.WellFormed) {text : String}
    (hcovers : r.Covers (annotationType scope fullyQualified text)) :
    (resolve scope fullyQualified text r).2 = r := by
  rw [annotationType, trimmedType_eq_iterate] at hcovers
  rw [resolve, peel_eq]
  dsimp only
  cases hcore : (peelTrimmed (Text.trim text.toList)).1 with
  | none =>
    rw [hcore] at hcovers
    exact wrap_snd_of_covers (Registry.yields_void h) (fun _ => rfl) _ hcovers h
  | some core =>
    rw [hcore] at hcovers
    exact wrap_snd_of_covers (resolveCore_yields h (.ofList core)) (resolveCore_snd_of_covers h) _
      hcovers h

/-! ## Several annotations -/

/-- The masks that were united before are kept. -/
theorem foldl_resolve (acc : Mask) (texts : List String) (r : Registry) :
    texts.foldl (fun (acc, r) text =>
        let (mask, r) := resolve scope fullyQualified text r
        (acc ∪ mask, r)) (acc, r) =
      (acc ∪ (resolveAll scope fullyQualified texts r).1,
        (resolveAll scope fullyQualified texts r).2) := by
  induction texts generalizing acc r with
  | nil => rw [resolveAll, List.foldl_nil, List.foldl_nil, Mask.union_void]
  | cons text rest ih =>
    rw [resolveAll, List.foldl_cons, List.foldl_cons]
    dsimp only
    rw [ih, ih (.void ∪ _), Mask.union_comm .void, Mask.union_void, Mask.union_assoc]

/-- Annotations are read one list after the other. -/
theorem resolveAll_append (texts rest : List String) (r : Registry) :
    resolveAll scope fullyQualified (texts ++ rest) r =
      ((resolveAll scope fullyQualified texts r).1 ∪
          (resolveAll scope fullyQualified rest (resolveAll scope fullyQualified texts r).2).1,
        (resolveAll scope fullyQualified rest (resolveAll scope fullyQualified texts r).2).2) := by
  rw [resolveAll, List.foldl_append]
  exact foldl_resolve _ _ _

/-- A single annotation is read as it is read alone. -/
theorem resolveAll_singleton (text : String) (r : Registry) :
    resolveAll scope fullyQualified [text] r = resolve scope fullyQualified text r := by
  rw [resolveAll, List.foldl_cons, List.foldl_nil]
  dsimp only
  rw [Mask.union_comm, Mask.union_void]

/-- Annotations are read from the first to the last, each in the registry that the one before has
left. -/
theorem resolveAll_cons (text : String) (rest : List String) (r : Registry) :
    resolveAll scope fullyQualified (text :: rest) r =
      ((resolve scope fullyQualified text r).1 ∪
          (resolveAll scope fullyQualified rest (resolve scope fullyQualified text r).2).1,
        (resolveAll scope fullyQualified rest (resolve scope fullyQualified text r).2).2) := by
  rw [← List.singleton_append, resolveAll_append, resolveAll_singleton]

/-- The step of `resolveAll`: one more annotation is resolved and joined to the mask. -/
private theorem foldl_resolve_yields (texts : List String) {t : PhpType} {answer : Mask × Registry}
    (h : r.Yields t answer) :
    r.Yields (texts.foldl (fun t text => t ∪ annotationType scope fullyQualified text) t)
      (texts.foldl (fun (acc, r) text =>
        let (mask, r) := resolve scope fullyQualified text r
        (acc ∪ mask, r)) answer) := by
  induction texts generalizing t answer with
  | nil => exact h
  | cons text rest ih =>
    have hnext : answer.2.Yields (annotationType scope fullyQualified text)
        (resolve scope fullyQualified text answer.2) := resolve_yields h.wellFormed text
    have howns := h.owns.extend hnext.grows
    refine ih ⟨hnext.wellFormed, h.grows.trans hnext.grows, howns.union hnext.owns, ?_⟩
    show (resolve scope fullyQualified text answer.2).2.typeOf
      (answer.1 ∪ (resolve scope fullyQualified text answer.2).1) = _
    rw [Registry.typeOf_union hnext.wellFormed howns hnext.owns, hnext.typeOf_eq,
      Registry.typeOf_extend h.wellFormed hnext.grows h.owns, h.typeOf_eq]

/-- The union of the masks of several annotations denotes the union of their types. -/
theorem resolveAll_yields (h : r.WellFormed) (texts : List String) :
    r.Yields (annotationsType scope fullyQualified texts)
      (resolveAll scope fullyQualified texts r) :=
  foldl_resolve_yields texts (Registry.yields_void h)

/-- A registry that covers a union other than the top covers each of its members. -/
private theorem covers_of_foldl (texts : List String) {t : PhpType}
    (hcovers : r.Covers
      (texts.foldl (fun t text => t ∪ annotationType scope fullyQualified text) t))
    (hany : texts.foldl (fun t text => t ∪ annotationType scope fullyQualified text) t ≠ .any) :
    r.Covers t ∧ t ≠ .any ∧
      ∀ text ∈ texts, r.Covers (annotationType scope fullyQualified text) := by
  induction texts generalizing t with
  | nil => exact ⟨hcovers, hany, fun _ h => absurd h List.not_mem_nil⟩
  | cons text rest ih =>
    obtain ⟨hunion, hne, hrest⟩ := ih hcovers hany
    obtain ⟨hleft, hright⟩ := hunion.of_union hne
    refine ⟨hleft, ?_, ?_⟩
    · rintro rfl
      exact hne (PhpType.any_union _)
    · intro n hn
      rcases List.mem_cons.mp hn with rfl | hn
      · exact hright
      · exact hrest n hn

/-- If no annotation adds anything, the union of all does not either. -/
theorem resolveAll_snd_of_forall {texts : List String}
    (h : ∀ text ∈ texts, (resolve scope fullyQualified text r).2 = r) :
    (resolveAll scope fullyQualified texts r).2 = r := by
  unfold resolveAll
  generalize Mask.void = acc
  induction texts generalizing acc with
  | nil => rfl
  | cons text rest ih =>
    rw [List.foldl_cons]
    dsimp only
    rw [h text List.mem_cons_self]
    exact ih (fun n hn => h n (List.mem_cons_of_mem _ hn)) _

/-- To resolve annotations whose union is covered and not the top adds nothing. -/
theorem resolveAll_snd_of_covers (h : r.WellFormed) {texts : List String}
    (hcovers : r.Covers (annotationsType scope fullyQualified texts))
    (hany : annotationsType scope fullyQualified texts ≠ .any) :
    (resolveAll scope fullyQualified texts r).2 = r := by
  obtain ⟨-, -, hall⟩ := covers_of_foldl texts hcovers hany
  exact resolveAll_snd_of_forall fun text htext => resolve_snd_of_covers h (hall text htext)

end TypeExpr

/-- To read annotations elsewhere and move their union never fails, and the mask that arrives has
the type of the annotations. -/
theorem Registry.resolveAndTransfer_yields {target source : Registry} (ht : target.WellFormed)
    (hs : source.WellFormed) (scope : Option Scope) (fullyQualified : Bool) (texts : List String) :
    ∃ answer,
      target.resolveAndTransfer source scope fullyQualified texts =
        .ok (answer.1, answer.2, (TypeExpr.resolveAll scope fullyQualified texts source).2) ∧
      target.Yields (TypeExpr.annotationsType scope fullyQualified texts) answer := by
  have hread : source.Yields (TypeExpr.annotationsType scope fullyQualified texts)
      (TypeExpr.resolveAll scope fullyQualified texts source) := TypeExpr.resolveAll_yields hs texts
  obtain ⟨answer, hmove, hyields, -⟩ := transfer_spec ht hread.wellFormed hread.owns
  rw [hread.typeOf_eq] at hyields
  refine ⟨answer, ?_, hyields⟩
  unfold resolveAndTransfer
  dsimp only
  rw [hmove]
  rfl

end PhpTypes
