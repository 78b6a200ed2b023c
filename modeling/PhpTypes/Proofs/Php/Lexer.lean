import PhpTypes.Proofs.Php.Preceding

/-!
# Where tokens and trivia stand

The lexer takes a text piece by piece and makes a token or a piece of trivia of each. So they stand
one behind the other (`Lexer.Covers`), the trivia lie around the start of every token
(`around_of_mem_tokens`), and a token is made of characters of the text (`mem_of_mem_token`).
-/

namespace PhpTypes.Php

namespace Lexer

/-- What the lexer has found in the text that it has passed. -/
structure Covers (s : State) (passed : List Char) : Prop where
  position_eq : s.position = passed.length
  /-- Tokens are made of characters of the text. -/
  chars : ∀ t ∈ s.tokens, ∀ c ∈ t.text.toList, c ∈ passed
  tokens : ∀ t ∈ s.tokens, t.start < t.stop ∧ t.stop ≤ passed.length
  trivia : ∀ v ∈ s.trivia, v.start < v.stop ∧ v.stop ≤ passed.length
  ordered : s.trivia.toList.Pairwise fun v w => v.stop ≤ w.start
  apart : ∀ v ∈ s.trivia, ∀ t ∈ s.tokens, v.stop ≤ t.start ∨ t.stop ≤ v.start

variable {s : State} {passed piece : List Char}

theorem Covers.empty (mode : Mode) : Covers ⟨mode, [], 0, #[], #[]⟩ [] := by
  refine ⟨rfl, ?_, ?_, ?_, .nil, ?_⟩ <;> simp

/-- A change of the mode changes nothing that has been found. -/
theorem Covers.move (h : Covers s passed) (m : Move) : Covers (s.move m) passed := by
  obtain ⟨mode, saved, position, tokens, trivia⟩ := s
  obtain ⟨hposition, hchars, htokens, htrivia, hordered, hapart⟩ := h
  cases m with
  | leave => cases saved <;> exact ⟨hposition, hchars, htokens, htrivia, hordered, hapart⟩
  | _ => exact ⟨hposition, hchars, htokens, htrivia, hordered, hapart⟩

/-- The text of a token is the piece, but for the bracket of embedded code. -/
theorem mem_of_mem_content {c : Char}
    (h : c ∈ (if piece == ['$', '\x7b'] then "\x7b" else String.ofList piece).toList) :
    c ∈ piece := by
  split at h
  · next hpiece =>
    rw [beq_iff_eq.mp hpiece]
    exact List.mem_cons_of_mem _ h
  · rwa [String.toList_ofList] at h

/-- The next piece of the text becomes one more token or piece of trivia behind the others. -/
theorem Covers.add (h : Covers s passed) (hne : piece ≠ []) (shape : Shape) :
    Covers (s.add shape piece) (passed ++ piece) := by
  obtain ⟨mode, saved, position, tokens, trivia⟩ := s
  obtain ⟨rfl, hchars, htokens, htrivia, hordered, hapart⟩ := h
  have hlength : 0 < piece.length := List.length_pos_iff.mpr hne
  have hchars' : ∀ t ∈ tokens, ∀ c ∈ t.text.toList, c ∈ passed ++ piece :=
    fun t ht c hc => List.mem_append_left _ (hchars t ht c hc)
  have htokens' : ∀ t ∈ tokens, t.start < t.stop ∧ t.stop ≤ (passed ++ piece).length := by
    simp only [List.length_append]
    exact fun t ht => (htokens t ht).imp_right fun hle => by omega
  have htrivia' : ∀ v ∈ trivia, v.start < v.stop ∧ v.stop ≤ (passed ++ piece).length := by
    simp only [List.length_append]
    exact fun v hv => (htrivia v hv).imp_right fun hle => by omega
  have hposition : passed.length + piece.length = (passed ++ piece).length :=
    List.length_append.symm
  have hpiece : passed.length < passed.length + piece.length ∧
      passed.length + piece.length ≤ (passed ++ piece).length := by
    rw [List.length_append]
    omega
  -- New trivia start where the passed text ends, behind all others.
  have hordered' (v : Trivia) (hv : v.start = passed.length) :
      (trivia.push v).toList.Pairwise fun v w => v.stop ≤ w.start := by
    rw [Array.toList_push, List.pairwise_append]
    refine ⟨hordered, List.pairwise_singleton .., fun u hu w hw => ?_⟩
    rw [List.mem_singleton.mp hw, hv]
    exact (htrivia u (Array.mem_toList_iff.mp hu)).2
  -- The piece stands apart from everything on the other side, which ends where it starts.
  cases shape with
  | token kind =>
    exact {
      position_eq := hposition
      chars := Array.forall_mem_push.mpr
        ⟨fun c hc => List.mem_append_right _ (mem_of_mem_content hc), hchars'⟩
      tokens := Array.forall_mem_push.mpr ⟨hpiece, htokens'⟩
      trivia := htrivia'
      ordered := hordered
      apart := fun v hv => Array.forall_mem_push.mpr ⟨.inl (htrivia v hv).2, hapart v hv⟩ }
  | trivia kind =>
    exact {
      position_eq := hposition
      chars := hchars'
      tokens := htokens'
      trivia := Array.forall_mem_push.mpr ⟨hpiece, htrivia'⟩
      ordered := hordered' _ rfl
      apart := Array.forall_mem_push.mpr ⟨fun t ht => .inr (htokens t ht).2, hapart⟩ }

/-- The whole walk covers what was passed and the text walked over. -/
theorem Covers.walk (h : Covers s passed) (text : List Char) :
    Covers (walk s text) (passed ++ text) := by
  fun_induction Lexer.walk s text generalizing passed with
  | case1 s => rwa [List.append_nil]
  | case2 s c rest found more =>
    rename_i ih
    have hstep := (h.add (List.cons_ne_nil c (rest.take more)) found.shape).move found.move
    have hrun := ih hstep
    rwa [List.append_assoc, List.cons_append, List.take_append_drop] at hrun

end Lexer

/-! ## Tokens and trivia of a text -/

/-- What the lexer finds covers the whole text, with the line that names an interpreter. -/
theorem exists_covers_lex (text : List Char) : ∃ s : Lexer.State,
    lex text = (s.tokens.toList, s.trivia.toList) ∧ Lexer.Covers s text := by
  let n := Lexer.interpreterLength text
  let start : Lexer.State := ⟨.html, [], 0, #[], #[]⟩
  have hstart : Lexer.Covers (if n == 0 then start else start.add (.token .html) (text.take n))
      (text.take n) := by
    split
    · next hzero =>
      rw [beq_iff_eq.mp hzero]
      exact .empty .html
    · next hzero =>
      refine (Lexer.Covers.empty .html).add (fun hnil => hzero ?_) _
      rcases List.take_eq_nil_iff.mp hnil with hn | rfl
      · exact beq_iff_eq.mpr hn
      · rfl
  have hwalk := hstart.walk (text.drop n)
  rw [List.take_append_drop] at hwalk
  exact ⟨_, rfl, hwalk⟩

variable {text : List Char} {t : Token}

/-- The characters of a token stand in the text. -/
theorem mem_of_mem_token (h : t ∈ (lex text).1) {c : Char} (hc : c ∈ t.text.toList) : c ∈ text := by
  obtain ⟨s, hlex, hcovers⟩ := exists_covers_lex text
  rw [hlex] at h
  exact hcovers.chars t (Array.mem_toList_iff.mp h) c hc

/-- The trivia of a text stand around the start of each of its tokens. -/
theorem around_of_mem_tokens (h : t ∈ (lex text).1) : Trivia.Around (lex text).2 t.start := by
  obtain ⟨s, hlex, hcovers⟩ := exists_covers_lex text
  rw [hlex] at h ⊢
  refine ⟨fun v hv => ?_, hcovers.ordered, fun v hv => ?_⟩
  · exact Nat.le_of_lt (hcovers.trivia v (Array.mem_toList_iff.mp hv)).1
  · have ht := hcovers.tokens t (Array.mem_toList_iff.mp h)
    have hapart := hcovers.apart v (Array.mem_toList_iff.mp hv) t (Array.mem_toList_iff.mp h)
    exact hapart.imp_right fun hle => by omega

end PhpTypes.Php
