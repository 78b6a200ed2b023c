import PhpTypes.Proofs.TypeExpr.Alternatives

/-!
# Balanced brackets

The depth of a text is the number of brackets that it opens and does not close, whatever their
kinds. A text is `Balanced` if its own depth is zero and no part of it from its start has a negative
one, and this is what `isBalanced` computes (`isBalanced_iff`). A text is gone over without a cut if
each of its bars stands at a depth other than zero (`PassedOver.of_bars`).
-/

namespace PhpTypes.TypeExpr

/-! ## The depth of a text -/

/-- The number of brackets that the text opens less the number of those that it closes. -/
def depth (text : List Char) : Int :=
  text.foldl depthAfter 0

/-- A character changes the depth by the same amount wherever it stands. -/
theorem depthAfter_eq_add (d : Int) (c : Char) : depthAfter d c = d + depthAfter 0 c := by
  simp only [depthAfter]
  split
  · omega
  · split <;> omega

/-- Going over a text changes the depth by the depth of the text. -/
theorem foldl_depthAfter (d : Int) (text : List Char) :
    text.foldl depthAfter d = d + depth text := by
  induction text generalizing d with
  | nil => exact (Int.add_zero d).symm
  | cons c rest ih =>
    rw [depth, List.foldl_cons, List.foldl_cons, ih, ih (depthAfter 0 c), depthAfter_eq_add d c,
      Int.add_assoc]

@[simp] theorem depth_nil : depth [] = 0 :=
  rfl

/-- The depth of a text is that of its first character and that of the rest. -/
theorem depth_cons (c : Char) (rest : List Char) :
    depth (c :: rest) = depthAfter 0 c + depth rest := by
  rw [depth, List.foldl_cons, foldl_depthAfter]

/-- The first character may be counted before the rest or with it. -/
theorem depthAfter_add_depth (d : Int) (c : Char) (rest : List Char) :
    depthAfter d c + depth rest = d + depth (c :: rest) := by
  rw [depth_cons, depthAfter_eq_add d c, Int.add_assoc]

/-- The depths of texts one after the other add up. -/
@[simp] theorem depth_append (s t : List Char) : depth (s ++ t) = depth s + depth t := by
  rw [depth, List.foldl_append, foldl_depthAfter]
  rfl

/-- A plain character leaves the depth alone. -/
theorem depthAfter_of_isPlain {c : Char} (h : isPlain c = true) : depthAfter 0 c = 0 := by
  simp only [isPlain, Bool.and_eq_true, Bool.not_eq_true'] at h
  simp [depthAfter, h]

/-- A text without brackets has depth zero. -/
theorem depth_eq_zero {text : List Char} (h : ∀ c ∈ text, depthAfter 0 c = 0) :
    depth text = 0 := by
  induction text with
  | nil => rfl
  | cons c rest ih =>
    rw [depth_cons, h c List.mem_cons_self, ih fun d hd => h d (List.mem_cons_of_mem c hd),
      Int.add_zero]

/-! ## Balanced texts -/

/-- Every bracket that closes has been opened before, and every one that opens is closed. -/
structure Balanced (text : List Char) : Prop where
  nonneg : ∀ before, before <+: text → 0 ≤ depth before
  depth_eq : depth text = 0

/-- Brackets close in order from a depth if the depth stays at zero or above and ends at zero. -/
theorem closesFrom_iff {d : Int} (hd : 0 ≤ d) (text : List Char) : closesFrom d text = true ↔
    (∀ before, before <+: text → 0 ≤ d + depth before) ∧ d + depth text = 0 := by
  induction text generalizing d with
  | nil =>
    rw [closesFrom, beq_iff_eq, depth_nil, Int.add_zero]
    refine ⟨fun h => ⟨fun before hbefore => ?_, h⟩, And.right⟩
    rw [List.prefix_nil.mp hbefore, depth_nil, Int.add_zero]
    exact hd
  | cons c rest ih =>
    rw [closesFrom, Bool.and_eq_true, decide_eq_true_iff]
    constructor
    · rintro ⟨hnext, hrest⟩
      rw [ih hnext] at hrest
      refine ⟨fun before hbefore => ?_, depthAfter_add_depth d c rest ▸ hrest.2⟩
      -- A prefix of the text is empty or starts with the first character.
      rcases List.prefix_cons_iff.mp hbefore with rfl | ⟨tail, rfl, htail⟩
      · rwa [depth_nil, Int.add_zero]
      · rw [← depthAfter_add_depth]
        exact hrest.1 tail htail
    · rintro ⟨hnonneg, hend⟩
      have hnonneg' (tail : List Char) (htail : tail <+: rest) :
          0 ≤ depthAfter d c + depth tail := by
        rw [depthAfter_add_depth]
        exact hnonneg _ (List.cons_prefix_cons.mpr ⟨rfl, htail⟩)
      have hnext : 0 ≤ depthAfter d c := by
        simpa using hnonneg' [] List.nil_prefix
      exact ⟨hnext, (ih hnext).mpr ⟨hnonneg', by rw [depthAfter_add_depth, hend]⟩⟩

/-- Balance is decided by going over the text once. -/
theorem isBalanced_iff {text : List Char} : isBalanced text = true ↔ Balanced text := by
  rw [isBalanced, closesFrom_iff (Int.le_refl 0)]
  simp only [Int.zero_add]
  exact ⟨fun h => ⟨h.1, h.2⟩, fun h => ⟨h.nonneg, h.depth_eq⟩⟩

instance (text : List Char) : Decidable (Balanced text) :=
  decidable_of_iff _ isBalanced_iff

theorem Balanced.nil : Balanced [] where
  nonneg before h := by rw [List.prefix_nil.mp h]; exact Int.le_refl 0
  depth_eq := depth_nil

/-- Balanced texts one after the other are balanced. -/
theorem Balanced.append {s t : List Char} (hs : Balanced s) (ht : Balanced t) :
    Balanced (s ++ t) where
  nonneg before h := by
    rcases List.prefix_or_prefix_of_prefix h (List.prefix_append s t) with h' | ⟨tail, rfl⟩
    · exact hs.nonneg before h'
    · rw [depth_append, hs.depth_eq, Int.zero_add]
      exact ht.nonneg tail ((List.prefix_append_right_inj s).mp h)
  depth_eq := by rw [depth_append, hs.depth_eq, ht.depth_eq, Int.zero_add]

/-- A character that is no bracket is balanced. -/
theorem Balanced.singleton {c : Char} (hopening : isOpening c = false)
    (hclosing : isClosing c = false) : Balanced [c] :=
  isBalanced_iff.mp (by simp [isBalanced, closesFrom, depthAfter, hopening, hclosing])

/-- A text of plain characters is balanced. -/
theorem Balanced.of_isPlain {text : List Char} (h : ∀ c ∈ text, isPlain c = true) :
    Balanced text := by
  induction text with
  | nil => exact .nil
  | cons c rest ih =>
    have hc := h c List.mem_cons_self
    simp only [isPlain, Bool.and_eq_true, Bool.not_eq_true'] at hc
    rw [← List.singleton_append]
    exact (Balanced.singleton hc.1.1 hc.1.2).append
      (ih fun d hd => h d (List.mem_cons_of_mem c hd))

/-- Parentheses around a balanced text are balanced. -/
theorem Balanced.enclosed {inner : List Char} (h : Balanced inner) :
    Balanced ('(' :: inner ++ [')']) where
  nonneg before hbefore := by
    rw [List.cons_append, List.prefix_cons_iff] at hbefore
    rcases hbefore with rfl | ⟨tail, rfl, htail⟩
    · exact Int.le_refl 0
    · have hopen : depthAfter 0 '(' = 1 := by decide
      rw [depth_cons, hopen]
      rcases List.prefix_concat_iff.mp htail with rfl | htail
      · rw [depth_append, h.depth_eq]
        decide
      · have := h.nonneg tail htail
        omega
  depth_eq := by
    rw [depth_append, depth_cons, h.depth_eq]
    decide

/-- A group is a balanced text in parentheses. -/
theorem group?_eq_some_iff {text inner : List Char} :
    group? text = some inner ↔ text = '(' :: inner ++ [')'] ∧ Balanced inner := by
  constructor
  · intro h
    cases text with
    | nil => cases h
    | cons c rest =>
      have hopen : c = '(' := Classical.byContradiction fun hc => by
        rw [group?_of_head?_ne (by simpa using hc)] at h
        cases h
      rw [hopen, group?_cons] at h
      split at h
      · next hgroup =>
        rw [Bool.and_eq_true, beq_iff_eq, isBalanced_iff] at hgroup
        obtain ⟨before, rfl⟩ := List.getLast?_eq_some_iff.mp hgroup.1
        rw [List.dropLast_concat] at h hgroup
        obtain rfl := Option.some.inj h
        exact ⟨by rw [hopen, List.cons_append], hgroup.2⟩
      · cases h
  · rintro ⟨rfl, hinner⟩
    rw [List.cons_append, group?_cons, List.getLast?_concat, List.dropLast_concat,
      isBalanced_iff.mpr hinner]
    rfl

/-- The text is a balanced text in parentheses. -/
def IsGroup (text : List Char) : Prop :=
  ∃ inner, Balanced inner ∧ text = '(' :: inner ++ [')']

/-- Groups are recognized exactly. -/
theorem isSome_group?_iff {text : List Char} : (group? text).isSome = true ↔ IsGroup text := by
  simp only [Option.isSome_iff_exists, group?_eq_some_iff, IsGroup, and_comm]

instance (text : List Char) : Decidable (IsGroup text) :=
  decidable_of_iff _ isSome_group?_iff

/-! ## Bars inside brackets -/

/-- Every bar of the text stands inside brackets. -/
def BarsEnclosed (text : List Char) : Prop :=
  ∀ before after, text = before ++ '|' :: after → depth before ≠ 0

/-- Whether all bars stand inside brackets can be told from the depths in front of them. -/
theorem barsEnclosed_iff {text : List Char} : BarsEnclosed text ↔
    ∀ n < text.length, text[n]? = some '|' → depth (text.take n) ≠ 0 := by
  constructor
  · intro h n hn hbar
    obtain ⟨_, hget⟩ := List.getElem?_eq_some_iff.mp hbar
    refine h _ (text.drop (n + 1)) ?_
    rw [← hget, List.getElem_cons_drop, List.take_append_drop]
  · rintro h before after rfl
    have hn : before.length < (before ++ '|' :: after).length := by simp
    simpa using h before.length hn (by simp)

instance (text : List Char) : Decidable (BarsEnclosed text) :=
  decidable_of_iff' _ barsEnclosed_iff

/-- A text is not cut if each of its bars stands at a depth other than zero. -/
theorem splitBars_append_of_bars {d : Int} {text : List Char}
    (h : ∀ before after, text = before ++ '|' :: after → d + depth before ≠ 0)
    (rest : List Char) :
    splitBars d (text ++ rest) = (splitBars (d + depth text) rest).modifyHead (text ++ ·) := by
  induction text generalizing d with
  | nil =>
    rw [depth_nil, Int.add_zero]
    exact (congrFun List.modifyHead_id _).symm
  | cons c text ih =>
    have hbar : c = '|' → d ≠ 0 := by
      rintro rfl
      simpa using h [] text rfl
    have htext : ∀ before after, text = before ++ '|' :: after →
        depthAfter d c + depth before ≠ 0 := by
      rintro before after rfl
      rw [depthAfter_add_depth]
      exact h (c :: before) after rfl
    rw [List.cons_append, splitBars_cons hbar, ih htext, depthAfter_add_depth,
      List.modifyHead_modifyHead]
    rfl

/-- A bar at depth zero is a cut, whatever was cut before it. -/
theorem splitBars_append_bar {d : Int} {text : List Char} (h : d + depth text = 0)
    (rest : List Char) :
    splitBars d (text ++ '|' :: rest) = splitBars d text ++ splitBars 0 rest := by
  induction text generalizing d with
  | nil =>
    rw [depth_nil, Int.add_zero] at h
    rw [h]
    rfl
  | cons c text ih =>
    rw [← depthAfter_add_depth] at h
    rw [List.cons_append, splitBars, splitBars]
    split
    · next hcut =>
      -- A cut leaves the depth at zero, where the bar left it.
      rw [Bool.and_eq_true, beq_iff_eq, beq_iff_eq] at hcut
      obtain ⟨rfl, rfl⟩ := hcut
      have hdepth : depthAfter 0 '|' = 0 := by decide
      rw [hdepth] at h
      rw [ih h, List.cons_append]
    · obtain ⟨part, parts, hparts⟩ :=
        List.exists_cons_of_ne_nil (splitBars_ne_nil (depthAfter d c) text)
      rw [ih h, hparts, List.cons_append, List.modifyHead_cons, List.modifyHead_cons,
        List.cons_append]

/-- A text of depth zero is gone over without a cut if none of its bars is at depth zero. -/
theorem PassedOver.of_bars {d : Int} {text : List Char} (hdepth : depth text = 0)
    (h : ∀ before after, text = before ++ '|' :: after → d + depth before ≠ 0) :
    PassedOver d text := by
  intro rest
  rw [splitBars_append_of_bars h, hdepth, Int.add_zero]

/-- Inside brackets, a balanced text is not cut. -/
theorem Balanced.passedOver {d : Int} (hd : 0 < d) {text : List Char} (h : Balanced text) :
    PassedOver d text := by
  refine .of_bars h.depth_eq fun before after htext => ?_
  have := h.nonneg before (htext ▸ List.prefix_append before _)
  omega

end PhpTypes.TypeExpr
