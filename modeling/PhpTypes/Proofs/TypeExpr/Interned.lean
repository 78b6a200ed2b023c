import PhpTypes.Proofs.TypeExpr.Meaning
import PhpTypes.Proofs.TypeExpr.Naming

/-!
# Classes that reading annotations adds

`Registry.AllNames` says something of the names of all classes in a registry. Reading an annotation
adds at most the class that its innermost element is resolved to (`AllNames.resolve`), and the
characters of this element are characters of the text.

Two facts follow. No class is called like a bare word of the vocabulary (`resolve_allNotWords`). And
if neither the texts nor the scope hold blanks beyond ASCII, all classes have class names
(`resolve_allSpelled`).
-/

namespace PhpTypes

namespace Registry

variable {P : String → Prop} {r : Registry}

/-- The names of all classes in the registry satisfy `P`. -/
def AllNames (P : String → Prop) (r : Registry) : Prop :=
  ∀ slot name, r.descriptor? slot = some (.classNamed name) → P name

/-- A registry without entries has no names. -/
theorem AllNames.empty : AllNames P .empty := by
  intro slot name h
  rw [descriptor?_empty] at h
  cases h

/-- Interning adds at most the name of the given class. -/
theorem AllNames.intern (h : r.AllNames P) {d : Descriptor}
    (hd : ∀ name, d = .classNamed name → P name) :
    AllNames P (r.intern d).2 := by
  unfold Registry.intern
  split
  · exact h
  · intro slot name hslot
    change (r.push d).descriptor? slot = _ at hslot
    rw [descriptor?_push] at hslot
    split at hslot
    · exact hd name (Option.some.inj hslot)
    · exact h slot name hslot

/-- Arrays add no names. -/
theorem AllNames.arrayOf (h : r.AllNames P) (m : Mask) : AllNames P (r.arrayOf m).2 := by
  unfold Registry.arrayOf
  split
  · exact h
  · exact h.intern fun name hname => by cases hname

/-- Asking for a class adds at most its own name. -/
theorem AllNames.classMask (h : r.AllNames P) {name : String}
    (hhead : name.toList.head? ≠ some '\\') (hname : P name) :
    AllNames P (r.classMask name).2 := by
  have hdrop : String.ofList (Text.dropLead ['\\'] name.toList) = name := by
    rw [Text.dropLead_of_head?_ne hhead, String.ofList_toList]
  unfold Registry.classMask
  rw [hdrop]
  exact h.intern fun name' heq => by rwa [← Descriptor.classNamed.inj heq]

end Registry

namespace TypeExpr

variable {P : String → Prop} {r : Registry} {scope : Option Scope} {fullyQualified : Bool}

/-! ## One annotation -/

/-- A text without array layers adds at most the class that it is resolved to. -/
theorem resolveCore_allNames (h : r.AllNames P) {text : String}
    (hname : isClassName text.toList = true →
      (resolveName scope text fullyQualified).isPrimitive = false →
      P (resolveName scope text fullyQualified).toText) :
    (resolveCore scope fullyQualified text r).2.AllNames P := by
  unfold resolveCore
  split
  · exact h
  · split
    · exact h
    · split
      · exact h
      · next hclass =>
        dsimp only
        split
        · exact h
        · next hprimitive =>
          refine h.classMask (head?_toText_resolveName scope text fullyQualified) ?_
          exact hname (by simpa using hclass) (by simpa using hprimitive)

/-- Array layers add no names. -/
theorem wrap_allNames {answer : Mask × Registry} (h : answer.2.AllNames P) (layers : Nat) :
    (wrap layers answer).2.AllNames P := by
  induction layers with
  | zero => exact h
  | succ layers ih =>
    rw [wrap_succ]
    exact ih.arrayOf _

/-- Reading an annotation adds no other class than that of its innermost element. -/
theorem resolve_allNames (h : r.AllNames P) {text : String}
    (hname : ∀ core, (peelTrimmed (Text.trim text.toList)).1 = some core →
      isClassName core = true →
      (resolveName scope (.ofList core) fullyQualified).isPrimitive = false →
      P (resolveName scope (.ofList core) fullyQualified).toText) :
    (resolve scope fullyQualified text r).2.AllNames P := by
  rw [resolve, peel_eq]
  dsimp only
  refine wrap_allNames ?_ _
  cases hcore : (peelTrimmed (Text.trim text.toList)).1 with
  | none => exact h
  | some core =>
    refine resolveCore_allNames h fun hclass => ?_
    rw [String.toList_ofList] at hclass
    exact hname core hcore hclass

/-- What every annotation of a list keeps is kept when all of them are read. -/
theorem resolveAll_allNames (h : r.AllNames P) {texts : List String}
    (hstep : ∀ text ∈ texts, ∀ r : Registry, r.AllNames P →
      (resolve scope fullyQualified text r).2.AllNames P) :
    (resolveAll scope fullyQualified texts r).2.AllNames P := by
  unfold resolveAll
  generalize Mask.void = acc
  induction texts generalizing acc r with
  | nil => exact h
  | cons text rest ih =>
    rw [List.foldl_cons]
    dsimp only
    exact ih (hstep text List.mem_cons_self r h)
      (fun other hother => hstep other (List.mem_cons_of_mem _ hother)) _

/-! ## Characters -/

/-- The element under a layer is part of the text. -/
theorem mem_of_mem_unwrap? {text element : List Char} (h : unwrap? text = some element) {c : Char}
    (hc : c ∈ element) : c ∈ text := by
  unfold unwrap? at h
  split at h
  · next found hfound =>
    obtain rfl := Option.some.inj h
    rw [← Text.append_of_isSuffixOf? hfound]
    exact List.mem_append_left _ hc
  · unfold bracketed? at h
    split at h
    · obtain rfl := Option.some.inj h
      exact List.mem_of_mem_drop (List.mem_of_mem_dropLast hc)
    · cases h

/-- The innermost element is part of the text. -/
theorem mem_of_mem_peelTrimmed {text core : List Char} (h : (peelTrimmed text).1 = some core)
    {c : Char} (hc : c ∈ core) : c ∈ text := by
  fun_induction peelTrimmed text generalizing core with
  | case1 text hend element helement found layers hpeel ih =>
    rw [hpeel] at ih
    exact mem_of_mem_unwrap? helement (Text.mem_of_mem_trim (ih h hc))
  | case2 => cases h
  | case3 text hend =>
    rwa [Option.some.inj h]

/-- There are no blanks around the innermost element. -/
theorem trim_of_peelTrimmed {text core : List Char} (htrim : Text.trim text = text)
    (h : (peelTrimmed text).1 = some core) : Text.trim core = core := by
  fun_induction peelTrimmed text generalizing core with
  | case1 text hend element helement found layers hpeel ih =>
    rw [hpeel] at ih
    exact ih (Text.trim_trim element) h
  | case2 => cases h
  | case3 text hend => rwa [← Option.some.inj h]

/-- What stands between bars is part of the text. -/
theorem mem_of_mem_splitBars {depth : Int} {text part : List Char}
    (h : part ∈ splitBars depth text) {c : Char} (hc : c ∈ part) : c ∈ text := by
  induction text generalizing depth part with
  | nil =>
    rw [splitBars, List.mem_singleton] at h
    rwa [h] at hc
  | cons d rest ih =>
    rw [splitBars] at h
    split at h
    · rcases List.mem_cons.mp h with rfl | h
      · exact absurd hc List.not_mem_nil
      · exact List.mem_cons_of_mem d (ih h hc)
    · generalize hparts : splitBars (depthAfter depth d) rest = parts at h
      cases parts with
      | nil => cases h
      | cons first others =>
        rw [List.modifyHead_cons] at h
        rcases List.mem_cons.mp h with rfl | h
        · rcases List.mem_cons.mp hc with rfl | hc
          · exact List.mem_cons_self
          · exact List.mem_cons_of_mem d (ih (by rw [hparts]; exact List.mem_cons_self) hc)
        · exact List.mem_cons_of_mem d (ih (by rw [hparts]; exact List.mem_cons_of_mem _ h) hc)

/-- What stands in a group is part of the text. -/
theorem mem_of_mem_group? {text inner : List Char} (h : group? text = some inner) {c : Char}
    (hc : c ∈ inner) : c ∈ text := by
  unfold group? at h
  split at h
  · split at h
    · rw [← Option.some.inj h] at hc
      exact List.mem_cons_of_mem _ (List.mem_of_mem_dropLast hc)
    · cases h
  · cases h

/-- The characters of an alternative come from the text or from the word `null`. -/
theorem mem_of_mem_expand {part alternative : List Char} (h : alternative ∈ expand part) {c : Char}
    (hc : c ∈ alternative) : c ∈ part ∨ c ∈ "null".toList := by
  fun_induction expand part generalizing alternative with
  | case1 => exact absurd h List.not_mem_nil
  | case2 part inner htrim ih =>
    rcases List.mem_append.mp h with hinner | hnull
    · refine (ih hinner hc).imp_left fun hmem => Text.mem_of_mem_trim ?_
      rw [htrim]
      exact List.mem_cons_of_mem _ hmem
    · rw [List.mem_singleton.mp hnull] at hc
      exact .inr hc
  | case3 part inner _ _ hgroup ih =>
    obtain ⟨⟨member, hmember⟩, -, halternative⟩ := List.mem_flatMap.mp h
    refine (ih member hmember halternative hc).imp_left fun hmem => Text.mem_of_mem_trim ?_
    exact mem_of_mem_group? hgroup (mem_of_mem_splitBars hmember hmem)
  | case4 part _ _ _ =>
    rw [List.mem_singleton.mp h] at hc
    exact .inl (Text.mem_of_mem_trim hc)

/-- All characters of the alternatives come from the text or from the word `null`. -/
theorem mem_of_mem_splitAlternatives {text alternative : String}
    (h : alternative ∈ splitAlternatives text) {c : Char} (hc : c ∈ alternative.toList) :
    c ∈ text.toList ∨ c ∈ "null".toList := by
  obtain ⟨chars, hchars, rfl⟩ := List.mem_map.mp h
  obtain ⟨part, hpart, hexpand⟩ := List.mem_flatMap.mp hchars
  rw [String.toList_ofList] at hc
  refine (mem_of_mem_expand hexpand hc).imp_left fun hmem => ?_
  exact Text.mem_of_mem_trim (Text.mem_of_mem_dropEndWhile (mem_of_mem_splitBars hpart hmem))

/-! ## Names that are added -/

/-- Reading adds no class whose name is a bare word of the vocabulary. -/
theorem resolve_allNotWords (h : r.AllNames fun name => Keyword.lookup? name = none)
    (text : String) :
    (resolve scope fullyQualified text r).2.AllNames fun name => Keyword.lookup? name = none :=
  resolve_allNames h fun _ _ _ hprimitive =>
    QualifiedName.lookup?_toText_eq_none_iff.mpr hprimitive

/-- Without blanks beyond ASCII, reading adds only classes that have class names. -/
theorem resolve_allSpelled (h : r.AllNames fun name => IsSpelled name.toList)
    (hscope : ∀ s ∈ scope, s.AllTexts fun text => IsSpelled text.toList) {text : String}
    (htext : ∀ c ∈ text.toList, isWideBlank c = false) :
    (resolve scope fullyQualified text r).2.AllNames fun name => IsSpelled name.toList := by
  refine resolve_allNames h fun core hcore hclass _ => ?_
  refine isSpelled_resolveName hscope ⟨?_, fun c hc => ?_⟩ fullyQualified
  · rwa [String.toList_ofList]
  · rw [String.toList_ofList] at hc
    exact htext c (Text.mem_of_mem_trim (mem_of_mem_peelTrimmed hcore hc))

end TypeExpr

end PhpTypes
