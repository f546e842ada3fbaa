import HeaderApi.Proofs.MatchingBraces
import HeaderApi.Token.Stream
import Mathlib.Data.List.Infix
import Mathlib.Order.Bounds.Basic

/-!
# Where a braced block ends

The line on which passing over a braced block ends is the first one with a brace behind which as
many braces are closed as were opened in the code of the block.  A block without such a line is a
fault that leaves the stream where it stands.
-/

namespace HeaderApi.Block

open Text Source

/-! ## Counting braces -/

/-- An opening or a closing brace. -/
def IsBrace (c : Char) : Prop := c = '\x7b' ∨ c = '\x7d'

variable {depth : Int} {code front rest : List Char} {codes : List (List Char)} {c : Char} {k : Nat}

theorem braceBalance_append (front rest : List Char) :
    braceBalance (front ++ rest) = braceBalance front + braceBalance rest := by
  simp only [braceBalance, List.count_append]
  omega

theorem braceBalance_cons (c : Char) (code : List Char) :
    braceBalance (c :: code) = braceBalance [c] + braceBalance code :=
  braceBalance_append [c] code

/-- One character of the code ends the block, or adds to the depth. -/
theorem braceDepth_cons (depth : Int) (c : Char) (code : List Char) :
    braceDepth depth (c :: code) =
      if c = '\x7d' ∧ depth = 1 then none else braceDepth (depth + braceBalance [c]) code := by
  rw [braceDepth]
  by_cases hopening : c = '\x7b'
  · subst hopening
    rw [if_pos rfl, if_neg (by simp)]
    rfl
  · rw [if_neg hopening]
    by_cases hclosing : c = '\x7d'
    · subst hclosing
      rw [if_pos rfl]
      by_cases hdepth : depth = 1
      · rw [if_pos (by omega), if_pos ⟨rfl, hdepth⟩]
      · rw [if_neg (by omega), if_neg (by simp [hdepth])]
        rfl
    · have hbalance : braceBalance [c] = 0 := by simp [braceBalance, hopening, hclosing]
      rw [if_neg hclosing, if_neg (by simp [hclosing]), hbalance, Int.add_zero]

/-! ## Inside of a block -/

/-- The code stays inside of a block: behind each of its characters a brace is open, with the given
number of open braces in front of it. -/
def StaysOpen (depth : Int) (code : List Char) : Prop :=
  ∀ front, front ≠ [] → front <+: code → 1 ≤ depth + braceBalance front

theorem staysOpen_nil (depth : Int) : StaysOpen depth [] := fun _ hne hfront =>
  absurd (List.prefix_nil.1 hfront) hne

/-- A text keeps a depth open when its first character does and the rest does at the depth behind
it. -/
theorem staysOpen_cons : StaysOpen depth (c :: code) ↔
    1 ≤ depth + braceBalance [c] ∧ StaysOpen (depth + braceBalance [c]) code := by
  constructor
  · intro h
    refine ⟨h [c] (List.cons_ne_nil _ _) ⟨code, rfl⟩, fun front hne hfront => ?_⟩
    have hpos := h (c :: front) (List.cons_ne_nil _ _) (List.cons_prefix_cons.2 ⟨rfl, hfront⟩)
    rw [braceBalance_cons] at hpos
    omega
  · rintro ⟨hc, hcode⟩ (_ | ⟨d, front⟩) hne hfront
    · exact absurd rfl hne
    · obtain ⟨rfl, hlater⟩ := List.cons_prefix_cons.1 hfront
      by_cases hnil : front = []
      · rwa [hnil]
      · have hpos := hcode front hnil hlater
        rw [braceBalance_cons]
        omega

/-- Two texts keep a depth open when the first does and the second does at the depth behind it. -/
theorem staysOpen_append : StaysOpen depth (front ++ rest) ↔
    StaysOpen depth front ∧ StaysOpen (depth + braceBalance front) rest := by
  induction front generalizing depth with
  | nil =>
    rw [List.nil_append, show braceBalance [] = 0 from rfl, Int.add_zero]
    exact (and_iff_right (staysOpen_nil depth)).symm
  | cons c front ih =>
    rw [List.cons_append, staysOpen_cons, staysOpen_cons, ih, and_assoc, braceBalance_cons c front,
      Int.add_assoc]

/-- The code of a line inside of a block, or of the one that opens it, has the brace that closes the
block, or stays inside. -/
theorem braceDepth_cases (hopens : 1 ≤ depth ∨ depth = 0 ∧ code.head? = some '\x7b') :
    (∃ front after, code = front ++ '\x7d' :: after ∧ braceDepth depth code = none ∧
      depth + braceBalance front = 1 ∧ StaysOpen depth front) ∨
    braceDepth depth code = some (depth + braceBalance code) ∧ StaysOpen depth code ∧
      1 ≤ depth + braceBalance code := by
  -- Only `hopens` lets the depth start at zero; behind the first character it is at least one.
  induction code generalizing depth with
  | nil =>
    have hdepth : 1 ≤ depth := hopens.resolve_right (by simp)
    refine .inr ⟨?_, staysOpen_nil depth, ?_⟩
    · rw [show braceBalance [] = 0 from rfl, Int.add_zero]
      rfl
    · rwa [show braceBalance [] = 0 from rfl, Int.add_zero]
  | cons c code ih =>
    rw [braceDepth_cons]
    by_cases hends : c = '\x7d' ∧ depth = 1
    · obtain ⟨rfl, rfl⟩ := hends
      exact .inl ⟨[], code, rfl, if_pos ⟨rfl, rfl⟩, rfl, staysOpen_nil 1⟩
    · rw [if_neg hends]
      -- A closing brace that does not close the block stands at a depth of at least two.
      have hpos : 1 ≤ depth + braceBalance [c] := by
        rcases hopens with hdepth | ⟨rfl, hc⟩
        · by_cases hc : c = '\x7d'
          · have hne : depth ≠ 1 := fun heq => hends ⟨hc, heq⟩
            rw [hc, show braceBalance ['\x7d'] = -1 by decide]
            omega
          · have hbalance : 0 ≤ braceBalance [c] := by simp [braceBalance, hc]
            omega
        · rw [Option.some.inj hc]
          decide
      rcases ih (.inl hpos) with ⟨front, after, rfl, hnone, hone, hfront⟩ | ⟨hsome, hcode, hlast⟩
      · refine .inl ⟨c :: front, after, rfl, hnone, ?_, staysOpen_cons.2 ⟨hpos, hfront⟩⟩
        rwa [braceBalance_cons, ← Int.add_assoc]
      · rw [braceBalance_cons c code, ← Int.add_assoc]
        exact .inr ⟨hsome, staysOpen_cons.2 ⟨hpos, hcode⟩, hlast⟩

/-! ## Over lines -/

/-- The code of some lines, the first of which begins inside or outside a block comment. -/
def codeLines (inComment : Bool) (text : Line) (rest : List Line) : List (List Char) :=
  (stripLines (text :: rest) inComment).map Prod.fst

/-- Behind one of the braces on a line as many braces are closed as were opened before, with the
given number of open braces in front of the first line. -/
def BalancesOn (depth : Int) (codes : List (List Char)) (k : Nat) : Prop :=
  ∃ front c after, codes[k]? = some (front ++ c :: after) ∧ IsBrace c ∧
    depth + braceBalance ((codes.take k).flatten ++ (front ++ [c])) = 0

/-- One of the braces on a line closes the block, and the code in front of it stays inside. -/
def ClosesOn (depth : Int) (codes : List (List Char)) (k : Nat) : Prop :=
  ∃ front after, codes[k]? = some (front ++ '\x7d' :: after) ∧
    depth + braceBalance ((codes.take k).flatten ++ front) = 1 ∧
    StaysOpen depth ((codes.take k).flatten ++ front)

/-- A line in front that keeps the depth open puts off the end by one line. -/
theorem ClosesOn.below (hcode : StaysOpen depth code)
    (h : ClosesOn (depth + braceBalance code) codes k) :
    ClosesOn depth (code :: codes) (k + 1) := by
  obtain ⟨front, after, hk, hone, hfront⟩ := h
  refine ⟨front, after, hk, ?_, ?_⟩
  · rw [List.take_succ_cons, List.flatten_cons, List.append_assoc, braceBalance_append,
      ← Int.add_assoc, hone]
  · rw [List.take_succ_cons, List.flatten_cons, List.append_assoc]
    exact staysOpen_append.2 ⟨hcode, hfront⟩

/-- Where lines balance on a line, a text in front of their end has balance zero. -/
theorem BalancesOn.exists_balanced (h : BalancesOn depth codes k) :
    ∃ front, front ≠ [] ∧ front <+: (codes.take (k + 1)).flatten ∧
      depth + braceBalance front = 0 := by
  obtain ⟨front, c, after, hk, -, hzero⟩ := h
  refine ⟨(codes.take k).flatten ++ (front ++ [c]), by simp, ⟨after, ?_⟩, hzero⟩
  rw [List.take_add_one, hk]
  simp

/-- Lines that stay open balance on no line. -/
theorem not_balancesOn (h : StaysOpen depth codes.flatten) (k : Nat) :
    ¬BalancesOn depth codes k := by
  intro hk
  obtain ⟨front, hne, hfront, hzero⟩ := hk.exists_balanced
  have hpos := h front hne (hfront.trans (List.take_prefix (k + 1) codes).flatten)
  omega

/-- The line of the brace that closes a block is the first one that balances. -/
theorem ClosesOn.isLeast (h : ClosesOn depth codes k) :
    IsLeast {k | BalancesOn depth codes k} k := by
  obtain ⟨front, after, hk, hone, hfront⟩ := h
  constructor
  · refine ⟨front, '\x7d', after, hk, .inr rfl, ?_⟩
    rw [← List.append_assoc, braceBalance_append, ← Int.add_assoc, hone]
    decide
  · intro j hj
    refine Nat.le_of_not_lt fun hlt => ?_
    obtain ⟨early, hne, hearly, hzero⟩ := hj.exists_balanced
    have hlater : codes.take (j + 1) <+: codes.take k := List.take_prefix_take_left hlt
    have hpos := hfront early hne
      ((hearly.trans hlater.flatten).trans (List.prefix_append _ front))
    omega

/-- Passing over a block ends at the line of the brace that closes it, unless all lines stay
inside. -/
theorem braces_cases {inComment : Bool} {text : Line}
    (hopens : 1 ≤ depth ∨ depth = 0 ∧ (strip text inComment).1.head? = some '\x7b')
    (rest : List Line) :
    (∃ passed left, rest = passed ++ left ∧
      braces depth inComment text rest = some (passed, left) ∧
      ClosesOn depth (codeLines inComment text rest) passed.length) ∨
    braces depth inComment text rest = none ∧
      StaysOpen depth (codeLines inComment text rest).flatten := by
  -- The depth behind each line is that of the lines below, which stay inside from at least one.
  induction rest generalizing depth inComment text with
  | nil =>
    rw [braces]
    rcases braceDepth_cases hopens with
      ⟨front, after, hcode, hnone, hone, hfront⟩ | ⟨hsome, hcode, -⟩
    · rw [hnone]
      exact .inl ⟨[], [], rfl, rfl, front, after, congrArg some hcode, hone, hfront⟩
    · rw [hsome]
      exact .inr ⟨rfl, by rwa [codeLines, stripLines, stripLines, List.map_singleton,
        List.flatten_singleton]⟩
  | cons next rest ih =>
    rw [braces]
    rcases braceDepth_cases hopens with
      ⟨front, after, hcode, hnone, hone, hfront⟩ | ⟨hsome, hcode, hpos⟩
    · rw [hnone]
      exact .inl ⟨[], next :: rest, rfl, rfl, front, after, congrArg some hcode, hone, hfront⟩
    · rw [hsome]
      rcases @ih (depth + braceBalance (strip text inComment).1) (strip text inComment).2 next
        (.inl hpos) with ⟨passed, left, rfl, hbraces, hcloses⟩ | ⟨hbraces, hlater⟩
      · refine .inl ⟨next :: passed, left, rfl, ?_, hcloses.below hcode⟩
        dsimp only
        rw [hbraces]
        rfl
      · refine .inr ⟨?_, staysOpen_append.2 ⟨hcode, hlater⟩⟩
        dsimp only
        rw [hbraces]
        rfl

/-! ## The line that ends a block -/

/-- The lines of a text, from the one that opens a block on, with a brace behind which as many are
closed as were opened in the code of the block. -/
def balancedLines (lines : List Line) (first : Nat) (inside : Line) : Set Nat :=
  {i | first ≤ i ∧
    BalancesOn 0 (codeLines false ('\x7b' :: inside) (lines.drop (first + 1))) (i - first)}

/-- The first line on which the codes balance, counted from the line of the opening brace. -/
theorem isLeast_balancedLines {lines : List Line} {first : Nat} {inside : Line}
    (h : IsLeast {k |
      BalancesOn 0 (codeLines false ('\x7b' :: inside) (lines.drop (first + 1))) k} k) :
    IsLeast (balancedLines lines first inside) (first + k) := by
  constructor
  · refine ⟨Nat.le_add_right first k, ?_⟩
    rw [Nat.add_sub_cancel_left]
    exact h.1
  · rintro i ⟨hle, hi⟩
    have hk : k ≤ i - first := h.2 hi
    omega

/-- Passing over a block ends at a line with the brace that closes it, unless no line balances. -/
theorem openBraces_cases {text before inside : Line}
    (hcut : cutAt '\x7b' text = some (before, inside)) (lines : List Line) (first : Nat)
    (here : List Line) :
    (∃ passed, openBraces here text (lines.drop (first + 1)) =
        .ok (inside, passed, lines.drop (first + passed.length + 1)) ∧
      ClosesOn 0 (codeLines false ('\x7b' :: inside) (lines.drop (first + 1))) passed.length) ∨
    openBraces here text (lines.drop (first + 1)) = .error ⟨.body, here⟩ ∧
      balancedLines lines first inside = ∅ := by
  have hopens : (strip ('\x7b' :: inside) false).1.head? = some '\x7b' := by
    rw [strip_openingBrace]
    rfl
  rw [openBraces, hcut]
  dsimp only
  rcases braces_cases (.inr ⟨rfl, hopens⟩) (lines.drop (first + 1)) with
    ⟨passed, left, hlines, hbraces, hcloses⟩ | ⟨hbraces, hinside⟩
  · have hleft : left = lines.drop (first + passed.length + 1) := by
      have hdrop := congrArg (List.drop passed.length) hlines
      rw [List.drop_left, List.drop_drop] at hdrop
      rw [← hdrop]
      congr 1
      omega
    rw [hbraces, hleft]
    exact .inl ⟨passed, rfl, hcloses⟩
  · rw [hbraces]
    refine .inr ⟨rfl, Set.eq_empty_of_forall_notMem fun i hi => ?_⟩
    exact not_balancesOn hinside _ hi.2

/-- **A braced block ends on the first line that balances.**  Passing over the block that a line
opens gives this line and the lines below it.  The brace that balances closes the block, and the
code in front of it stays inside.  Where no line balances, it is a fault that leaves the position
in the text and the open scopes as they are. -/
theorem openBraces_isLeast {text before inside : Line}
    (hcut : cutAt '\x7b' text = some (before, inside)) (lines : List Line) (first : Nat)
    (c : Token.Cursor) :
    (∀ i, (∃ passed, openBraces c.rest text (lines.drop (first + 1)) =
        .ok (inside, passed, lines.drop (i + 1)) ∧ first + passed.length = i) ↔
      IsLeast (balancedLines lines first inside) i) ∧
    (∀ i, IsLeast (balancedLines lines first inside) i →
      ClosesOn 0 (codeLines false ('\x7b' :: inside) (lines.drop (first + 1))) (i - first)) ∧
    ((∃ fault, openBraces c.rest text (lines.drop (first + 1)) = .error fault) ↔
      balancedLines lines first inside = ∅) ∧
    ∀ fault, openBraces c.rest text (lines.drop (first + 1)) = .error fault →
      fault.cause.text = "unterminated body" ∧ c.moveTo fault.rest = c := by
  -- A least line is unique, so the run that closes decides every part; a fault refutes the rest.
  rcases openBraces_cases hcut lines first c.rest with ⟨passed, hopen, hcloses⟩ | ⟨hfault, hempty⟩
  · have hleast := isLeast_balancedLines hcloses.isLeast
    rw [hopen]
    refine ⟨fun i => ⟨?_, fun hi => ?_⟩, fun i hi => ?_, ⟨?_, fun hempty => ?_⟩,
      fun fault hfault => ?_⟩
    · rintro ⟨passed', heq, rfl⟩
      cases heq
      exact hleast
    · rw [hi.unique hleast]
      exact ⟨passed, rfl, rfl⟩
    · rwa [hi.unique hleast, Nat.add_sub_cancel_left]
    · rintro ⟨fault, hfault⟩
      cases hfault
    · exact absurd (hempty ▸ hleast.1) (Set.notMem_empty _)
    · cases hfault
  · rw [hfault, hempty]
    refine ⟨fun i => ⟨?_, fun hi => ?_⟩, fun i hi => ?_, iff_of_true ⟨_, rfl⟩ rfl,
      fun fault hfault => ?_⟩
    · rintro ⟨passed, hopen, -⟩
      cases hopen
    · exact absurd hi.1 (Set.notMem_empty i)
    · exact absurd hi.1 (Set.notMem_empty i)
    · cases hfault
      exact ⟨rfl, by simp [Token.Cursor.moveTo]⟩

/-- A block with braces in comments, one of them over two lines, and in literals. -/
def sizeLines : List Line :=
  ["struct Size \x7b // \x7d", "  char c = '\x7d'; /* \x7d",
    "  \x7d */ int f() \x7b return 0; \x7d", "\x7d; \x7d", "int g();"].map String.toList

/-- A block that ends on the fourth line, behind closing braces in comments and in a literal;
without that line it never ends. -/
theorem openBraces_isLeast_size :
    cutAt '\x7b' sizeLines.head! = some ("struct Size ".toList, " // \x7d".toList) ∧
      IsLeast (balancedLines sizeLines 0 " // \x7d".toList) 3 ∧
      ClosesOn 0 (codeLines false ('\x7b' :: " // \x7d".toList) sizeLines.tail) 3 ∧
      balancedLines (sizeLines.take 3) 0 " // \x7d".toList = ∅ := by
  have hcut : cutAt '\x7b' sizeLines.head! = some ("struct Size ".toList, " // \x7d".toList) := rfl
  obtain ⟨hends, hcloses, -, -⟩ := openBraces_isLeast hcut sizeLines 0 (.start 1 sizeLines)
  obtain ⟨-, -, hfault, -⟩ := openBraces_isLeast hcut (sizeLines.take 3) 0 (.start 1 sizeLines)
  have hleast := (hends 3).1 ⟨_, rfl, rfl⟩
  exact ⟨hcut, hleast, hcloses 3 hleast, hfault.1 ⟨_, rfl⟩⟩

end HeaderApi.Block
