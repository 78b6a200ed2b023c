import PhpTypes.Proofs.Session.Soundness
import PhpTypes.Proofs.TypeExpr.Grammar

/-!
# Reading annotations in reachable contexts

What an annotation denotes is settled by the grammar, whatever the context holds already. Reading it
once more, at any later time, finds everything in place: the answer is the same mask and the
registry stays as it is. This is so for every request (`Request.run_again`).
-/

namespace PhpTypes

/-! ## The meaning of an annotation -/

namespace Context

/-- **Reading an annotation gives the type of the grammar.** The grammar gives the annotation one
type, and in every reachable context the mask that is read unfolds to it. -/
theorem Reachable.resolve_denotes (scope : Option Scope) (fullyQualified : Bool) (text : String) :
    ∃ t, (∀ t', TypeExpr.Denotes scope fullyQualified text.toList t' ↔ t' = t) ∧
      ∀ c : Context, c.Reachable →
        (TypeExpr.resolve scope fullyQualified text c.registry).2.typeOf
          (TypeExpr.resolve scope fullyQualified text c.registry).1 = t := by
  refine ⟨TypeExpr.annotationType scope fullyQualified text, ?_, ?_⟩
  · intro t'
    rw [TypeExpr.denotes_iff, eq_comm]
    rfl
  · intro c hc
    exact (TypeExpr.resolve_yields hc.sound.wellFormed text).typeOf_eq

/-- Layers of both forms around a class that the context knows in another spelling. -/
theorem resolve_denotes_of_mixed_layers :
    (TypeExpr.resolve none false " Array[ FOO [] ] " (reading "Foo").registry).2.typeOf
        (TypeExpr.resolve none false " Array[ FOO [] ] " (reading "Foo").registry).1 =
      .arrayOf (.arrayOf (.of (.single .null) {"foo"} ∅)) := by
  obtain ⟨t, hdenotes, htype⟩ := Reachable.resolve_denotes none false " Array[ FOO [] ] "
  rw [htype (reading "Foo") (.reading "Foo")]
  refine ((hdenotes _).mp ?_).symm
  have hname : resolveName none (.ofList (Text.trim "FOO ".toList)) false = .parse "FOO" := by
    decide
  have hfold : (QualifiedName.parse "FOO").toText.foldCase = "foo" := by decide
  have hclass : TypeExpr.Denotes none false "FOO ".toList (.of (.single .null) {"foo"} ∅) := by
    rw [← hfold]
    exact .named (by decide) (by decide) (by decide) hname (by decide)
  have hbrackets : Text.trim " FOO [] ".toList = "FOO ".toList ++ ['[', ']'] := by decide
  have hwrapped : Text.trim " Array[ FOO [] ] ".toList =
      "Array[".toList ++ " FOO [] ".toList ++ [']'] := by decide
  exact .wrapped hwrapped (by decide) (by decide) (.brackets hbrackets hclass)

end Context

/-! ## Reading again -/

namespace TypeExpr

variable {r r' : Registry} {scope : Option Scope} {fullyQualified : Bool}

/-- An annotation that has been read adds nothing when it is read again. -/
theorem resolve_snd_of_extends (h : r.WellFormed) (h' : r'.WellFormed) (text : String)
    (hext : (resolve scope fullyQualified text r).2.Extends r') :
    (resolve scope fullyQualified text r').2 = r' := by
  have hyields : r.Yields (annotationType scope fullyQualified text)
      (resolve scope fullyQualified text r) := resolve_yields h text
  exact resolve_snd_of_covers h' (hyields.covers.extend hyields.wellFormed hext)

/-- Annotations that have been read together add nothing when they are read again. -/
theorem resolveAll_snd_of_extends (h : r.WellFormed) (h' : r'.WellFormed) (texts : List String)
    (hext : (resolveAll scope fullyQualified texts r).2.Extends r') :
    (resolveAll scope fullyQualified texts r').2 = r' := by
  refine resolveAll_snd_of_forall fun text htext => ?_
  induction texts generalizing r with
  | nil => exact absurd htext List.not_mem_nil
  | cons first rest ih =>
    have hfirst : r.Yields (annotationType scope fullyQualified first)
        (resolve scope fullyQualified first r) := resolve_yields h first
    rw [resolveAll_cons] at hext
    rcases List.mem_cons.mp htext with rfl | htext
    · have hrest : Registry.Yields (resolve scope fullyQualified text r).2
          (annotationsType scope fullyQualified rest) (resolveAll scope fullyQualified rest _) :=
        resolveAll_yields hfirst.wellFormed rest
      exact resolve_snd_of_extends h h' text (hrest.grows.trans hext)
    · exact ih hfirst.wellFormed hext htext

end TypeExpr

namespace Request

variable {r r' : Registry}

/-- The type that a request asks for does not change when the registry grows. -/
theorem typeIn_extend (h : r.WellFormed) (hext : r.Extends r') {q : Request}
    (hq : ∀ m ∈ q.inputs, r.Owns m) : q.typeIn r' = q.typeIn r := by
  have htype (m : Mask) (hm : m ∈ q.inputs) : r'.typeOf m = r.typeOf m :=
    Registry.typeOf_extend h hext (hq m hm)
  cases q with
  | arrayOf element => rw [typeIn, typeIn, htype element (List.mem_singleton_self element)]
  | union a b =>
    rw [typeIn, typeIn, htype a List.mem_cons_self,
      htype b (List.mem_cons_of_mem a (List.mem_singleton_self b))]
  | _ => rfl

/-- A request that has been answered adds nothing when it is made again. -/
theorem run_snd_of_extends (h : r.WellFormed) (h' : r'.WellFormed) {q : Request}
    (hq : ∀ m ∈ q.inputs, r.Owns m) (hext : (q.run r).2.Extends r') : (q.run r').2 = r' := by
  have hyields := q.run_yields h hq
  have hcovers : r'.Covers (q.typeIn r) := hyields.covers.extend hyields.wellFormed hext
  have hgrows : r.Extends r' := hyields.grows.trans hext
  cases q with
  | resolve scope fullyQualified text => exact TypeExpr.resolve_snd_of_extends h h' text hext
  | resolveAll scope fullyQualified texts =>
    exact TypeExpr.resolveAll_snd_of_extends h h' texts hext
  | resolveText scope text => exact TypeExpr.resolveAll_snd_of_extends h h' _ hext
  | known word => rfl
  | arrayOf element =>
    have helement : r.Owns element := hq element (List.mem_singleton_self element)
    rw [← typeIn_extend h hgrows hq] at hcovers
    exact Registry.arrayOf_snd_of_covers h' (helement.extend hgrows) hcovers
  | nominal text allowNull =>
    have hname := QualifiedName.head?_toText_parse text
    cases allowNull with
    | false => exact Registry.classMask_snd_of_covers h' hname hcovers
    | true => exact Registry.classMask_snd_of_covers h' hname hcovers
  | union a b => rfl
  | kindPart m => rfl

/-- **A request made again is answered again in the same way**, and nothing is added. -/
theorem run_again (h : r.WellFormed) (h' : r'.WellFormed) {q : Request}
    (hq : ∀ m ∈ q.inputs, r.Owns m) (hext : (q.run r).2.Extends r') :
    q.run r' = ((q.run r).1, r') := by
  have hfirst := q.run_yields h hq
  have hgrows : r.Extends r' := hfirst.grows.trans hext
  have hagain := q.run_yields h' fun m hm => (hq m hm).extend hgrows
  have hsnd : (q.run r').2 = r' := run_snd_of_extends h h' hq hext
  have howns := hagain.owns
  have htype := hagain.typeOf_eq
  rw [hsnd] at howns htype
  have hsame : r'.typeOf (q.run r).1 = q.typeIn r := by
    rw [Registry.typeOf_extend hfirst.wellFormed hext hfirst.owns, hfirst.typeOf_eq]
  rw [typeIn_extend h hgrows hq, ← hsame] at htype
  exact Prod.ext (Registry.typeOf_injOn h' howns (hfirst.owns.extend hext) htype) hsnd

end Request

end PhpTypes
