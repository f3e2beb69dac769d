import EagerLisp.Proofs.Token.Parens

namespace EagerLisp.Token

/-- The same token further on in a longer text. -/
def shift (distance : Nat) (token : Token) : Token :=
  ⟨token.lexeme, ⟨token.span.start + distance, token.span.stop + distance⟩⟩

namespace Pass

/-- The same pass over the rest of a longer text, in which the `earlier` tokens have been found. -/
def behind (pass : Pass) (distance : Nat) (earlier : List Token) : Pass where
  place := pass.place + distance
  region := pass.region
  pending? := pass.pending?.map fun pending => ⟨pending.start + distance, pending.kept⟩
  found := pass.found.map (shift distance) ++ earlier

variable (pass : Pass) (distance : Nat) (earlier : List Token)

theorem flush_behind :
    (pass.behind distance earlier).flush = pass.flush.behind distance earlier := by
  obtain ⟨place, region, pending?, found⟩ := pass
  cases pending? <;> rfl

private theorem keep_behind (c : Char) :
    (pass.behind distance earlier).keep c = (pass.keep c).behind distance earlier := by
  obtain ⟨place, region, pending?, found⟩ := pass
  cases pending? <;> rfl

private theorem emit_behind (lexeme : Lexeme) :
    (pass.behind distance earlier).emit lexeme = (pass.emit lexeme).behind distance earlier := by
  simp [emit, behind, shift, Nat.add_right_comm]

private theorem take_behind (c : Char) :
    (pass.behind distance earlier).take c = (pass.take c).behind distance earlier := by
  have region : (pass.behind distance earlier).region = pass.region := rfl
  unfold take
  rw [region]
  split
  · rfl
  · rw [keep_behind]
    rfl
  · simp only [flush_behind, keep_behind, emit_behind]
    split_ifs <;> rfl

private theorem step_behind (c : Char) :
    (pass.behind distance earlier).step c = (pass.step c).behind distance earlier := by
  simp only [step, take_behind]
  simp only [behind, Nat.add_right_comm]

theorem foldl_step_behind (text : List Char) :
    text.foldl step (pass.behind distance earlier) =
      (text.foldl step pass).behind distance earlier := by
  induction text generalizing pass with
  | nil => rfl
  | cons c rest ih => rw [List.foldl_cons, step_behind, ih, List.foldl_cons]

theorem tokens_behind :
    (pass.behind distance earlier).tokens =
      earlier.reverse ++ pass.tokens.map (shift distance) := by
  simp only [tokens, flush_behind]
  simp [behind]

private theorem step_place (c : Char) : (pass.step c).place = pass.place + c.utf8Size := rfl

private theorem foldl_step_place (text : List Char) :
    (text.foldl step pass).place = pass.place + byteLength text := by
  induction text generalizing pass with
  | nil => rfl
  | cons c rest ih => rw [List.foldl_cons, ih, step_place, byteLength_cons, Nat.add_assoc]

/-- In code, a character that ends an atom does so at once. -/
theorem step_flush {c : Char} (code : pass.region = .code) (ends : endsAtom c = true) :
    pass.flush.step c = pass.step c := by
  obtain ⟨place, region, pending?, found⟩ := pass
  cases code
  cases pending? with
  | none => rfl
  | some pending => exact (step_of_ends ends place pending.start pending.kept found).symm

end Pass

theorem scan_shift (offset distance : Nat) (found : List Token) (text : List Char) :
    scan (offset + distance) found text =
      found.reverse ++ (scan offset [] text).map (shift distance) := by
  have begun : (⟨offset + distance, .code, none, found⟩ : Pass) =
      Pass.behind ⟨offset, .code, none, []⟩ distance found := rfl
  rw [Pass.scan_eq_foldl_step, begun, Pass.foldl_step_behind, Pass.tokens_behind,
    ← Pass.scan_eq_foldl_step]

/-- The tokens of two texts that meet at a character that ends an atom. -/
theorem scan_append {front back : List Char} {c : Char}
    (code : front.foldl Region.after .code = .code) (ends : endsAtom c = true) :
    scan 0 [] (front ++ c :: back) =
      scan 0 [] front ++ (scan 0 [] (c :: back)).map (shift (byteLength front)) := by
  have region : (front.foldl Pass.step ⟨0, .code, none, []⟩).region = .code := by
    rw [Pass.foldl_step_region]
    exact code
  have place := Pass.foldl_step_place ⟨0, .code, none, []⟩ front
  -- The character behind the seam ends a pending atom anyhow, so it may count as ended before.
  have between : (front.foldl Pass.step ⟨0, .code, none, []⟩).flush =
      ⟨0 + byteLength front, .code, none, (scan 0 [] front).reverse⟩ := by
    rw [Pass.scan_eq_foldl_step, Pass.tokens, List.reverse_reverse]
    generalize front.foldl Pass.step ⟨0, .code, none, []⟩ = pass at region place
    obtain ⟨_, _, pending?, _⟩ := pass
    cases region
    cases place
    cases pending? <;> rfl
  have whole := scan_shift 0 (byteLength front) (scan 0 [] front).reverse (c :: back)
  rw [List.reverse_reverse] at whole
  rw [← whole, Pass.scan_eq_foldl_step, List.foldl_append, List.foldl_cons,
    ← Pass.step_flush _ region ends, between, ← List.foldl_cons, ← Pass.scan_eq_foldl_step]

/-- What the tokens of a text stand for, their places left out. -/
def lexemes (text : List Char) : List Lexeme :=
  (scan 0 [] text).map lexeme

theorem lexemes_append {front back : List Char} {c : Char}
    (code : front.foldl Region.after .code = .code) (ends : endsAtom c = true) :
    lexemes (front ++ c :: back) = lexemes front ++ lexemes (c :: back) := by
  rw [lexemes, scan_append code ends, List.map_append, List.map_map]
  rfl

theorem map_lexeme_scan (offset : Nat) (found : List Token) (text : List Char) :
    (scan offset found text).map lexeme = found.reverse.map lexeme ++ lexemes text := by
  have whole := scan_shift 0 offset found text
  rw [Nat.zero_add] at whole
  rw [whole, List.map_append, List.map_map]
  rfl

@[simp] theorem lexemes_open (rest : List Char) :
    lexemes ('(' :: rest) = .openParen :: lexemes rest := by
  rw [lexemes, scan, if_pos rfl, map_lexeme_scan]
  rfl

@[simp] theorem lexemes_close (rest : List Char) :
    lexemes (')' :: rest) = .closeParen :: lexemes rest := by
  rw [lexemes, scan, if_neg (by decide), if_pos rfl, map_lexeme_scan]
  rfl

theorem lexemes_blank {c : Char} (blank : isBlank c = true) (rest : List Char) :
    lexemes (c :: rest) = lexemes rest := by
  have notOpen : c ≠ '(' := by
    rintro rfl
    exact absurd blank (by decide)
  have notClose : c ≠ ')' := by
    rintro rfl
    exact absurd blank (by decide)
  rw [lexemes, scan, if_neg notOpen, if_neg notClose, if_pos blank, map_lexeme_scan]
  rfl

/-- The newline behind a comment adds nothing, even if an atom stands in front of the comment. -/
theorem lexemes_newline {front : List Char}
    (comment : front.foldl Region.after .code = .comment) :
    lexemes (front ++ ['\n']) = lexemes front := by
  have region : (front.foldl Pass.step ⟨0, .code, none, []⟩).region = .comment := by
    rw [Pass.foldl_step_region]
    exact comment
  rw [lexemes, lexemes, Pass.scan_eq_foldl_step, Pass.scan_eq_foldl_step, List.foldl_append]
  generalize front.foldl Pass.step ⟨0, .code, none, []⟩ = pass at region
  obtain ⟨place, _, pending?, found⟩ := pass
  cases region
  cases pending? with
  | none => rfl
  | some pending => simp [Pass.step, Pass.take, Pass.tokens, Pass.flush]

/-- A newline and a space set two texts apart, unless the first one ends in a quoted stretch. -/
theorem lexemes_apart {front : List Char} (closed : front.foldl Region.after .code ≠ .quoted)
    (back : List Char) :
    lexemes (front ++ '\n' :: ' ' :: back) = lexemes front ++ lexemes back := by
  cases region : front.foldl Region.after .code with
  | code =>
    rw [lexemes_append region (by decide), lexemes_blank (by decide), lexemes_blank (by decide)]
  | quoted => exact absurd region closed
  | comment =>
    have ended : (front ++ ['\n']).foldl Region.after .code = .code := by
      rw [List.foldl_append, region]
      rfl
    have apart : lexemes (front ++ ['\n'] ++ ' ' :: back) = _ :=
      lexemes_append ended (by decide)
    rw [lexemes_blank (by decide), lexemes_newline region] at apart
    simpa using apart

/-- A text that is cut into these lexemes and leaves no quoted stretch or comment open. -/
structure Cuts (text : String) (found : List Lexeme) : Prop where
  lexemes_eq : lexemes text.toList = found
  closed : text.toList.foldl Region.after .code = .code

namespace Cuts

variable {text more : String} {found others : List Lexeme}

theorem empty : Cuts "" [] :=
  ⟨by simp [lexemes, scan], rfl⟩

theorem lexemes_space (cuts : Cuts text found) (more : String) :
    lexemes (text ++ " " ++ more).toList = found ++ lexemes more.toList := by
  have apart : lexemes (text.toList ++ ' ' :: more.toList) = _ :=
    lexemes_append cuts.closed (by decide)
  rw [lexemes_blank (by decide), cuts.lexemes_eq] at apart
  simpa using apart

theorem space (cuts : Cuts text found) (behind : Cuts more others) :
    Cuts (text ++ " " ++ more) (found ++ others) := by
  refine ⟨?_, ?_⟩
  · rw [cuts.lexemes_space, behind.lexemes_eq]
  · simp [cuts.closed, Region.after, behind.closed]

theorem parens (cuts : Cuts text found) :
    Cuts ("(" ++ text ++ ")") (.openParen :: (found ++ [.closeParen])) := by
  have inside : lexemes (text.toList ++ ')' :: []) = _ := lexemes_append cuts.closed (by decide)
  have none : lexemes [] = [] := empty.lexemes_eq
  rw [lexemes_close, none, cuts.lexemes_eq] at inside
  refine ⟨?_, ?_⟩
  · simp [inside]
  · simp [Region.after, cuts.closed]

end Cuts

/-- Pieces with a space between them are cut one by one if all but the last leave nothing open. -/
theorem lexemes_intercalate {α : Type} {text : α → String} {found : α → List Lexeme}
    {pieces : List α} (each : ∀ piece ∈ pieces, lexemes (text piece).toList = found piece)
    (closed : ∀ piece ∈ pieces.dropLast,
      (text piece).toList.foldl Region.after .code = .code) :
    lexemes (" ".intercalate (pieces.map text)).toList = pieces.flatMap found := by
  induction pieces with
  | nil => exact Cuts.empty.lexemes_eq
  | cons piece rest ih =>
    have first := each piece List.mem_cons_self
    cases rest with
    | nil => simpa using first
    | cons second rest =>
      have cuts : Cuts (text piece) (found piece) := ⟨first, closed piece (by simp)⟩
      have others := ih (fun other member => each other (List.mem_cons_of_mem _ member))
        fun other member => closed other (by simp [member])
      have apart := cuts.lexemes_space (" ".intercalate ((second :: rest).map text))
      rw [others] at apart
      simpa using apart

end EagerLisp.Token
