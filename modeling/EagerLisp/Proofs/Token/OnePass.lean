import EagerLisp.Token

/-! The tokens of a text as a machine finds them that looks at every character once. The machine
collects the text of an atom while it reads it, and a comment inside an atom interrupts the
collecting only. Delimiting an atom first and dropping its comments afterwards comes to the same
tokens at the same places. -/
namespace EagerLisp.Token

/-- An atom that has begun: the byte it begins at, and the characters kept so far, newest
first. -/
structure Pending where
  start : Nat
  kept : List Char

/-- A pass over a text that has come to the byte `place`; `found` holds the finished tokens,
newest first. -/
structure Pass where
  place : Nat
  region : Region
  pending? : Option Pending
  found : List Token

namespace Pass

def start : Pass := ⟨0, .code, none, []⟩

/-- Ends the pending atom at the place that the pass has come to. -/
def flush (pass : Pass) : Pass :=
  match pass.pending? with
  | none => pass
  | some ⟨start, kept⟩ =>
    { pass with
      pending? := none
      found := ⟨.atom (String.ofList kept.reverse), ⟨start, pass.place⟩⟩ :: pass.found }

/-- Appends a character to the pending atom, which begins with it if there is none. -/
def keep (pass : Pass) (c : Char) : Pass :=
  let pending := pass.pending?.getD ⟨pass.place, []⟩
  { pass with pending? := some ⟨pending.start, c :: pending.kept⟩ }

def emit (pass : Pass) (lexeme : Lexeme) : Pass :=
  { pass with found := ⟨lexeme, ⟨pass.place, pass.place + 1⟩⟩ :: pass.found }

/-- What a character does before the pass moves on behind it. -/
def take (pass : Pass) (c : Char) : Pass :=
  match pass.region with
  | .comment => { pass with region := if c = '\n' then .code else .comment }
  | .quoted => { pass.keep c with region := if c = '"' then .code else .quoted }
  | .code =>
    if c = '(' then pass.flush.emit .openParen
    else if c = ')' then pass.flush.emit .closeParen
    else if c = ' ' ∨ c = '\t' ∨ c = '\r' ∨ c = '\n' then pass.flush
    else if c = ';' then { pass with region := .comment }
    else if c = '"' then { pass.keep c with region := .quoted }
    else pass.keep c

def step (pass : Pass) (c : Char) : Pass :=
  { pass.take c with place := pass.place + c.utf8Size }

/-- The tokens of a pass that has come to the end of its text. -/
def tokens (pass : Pass) : List Token :=
  pass.flush.found.reverse

end Pass

/-- The tokens of a text in one pass. -/
def onePass (source : String) : List Token :=
  (source.toList.foldl Pass.step Pass.start).tokens

namespace Pass

theorem isBlank_iff {c : Char} :
    isBlank c = true ↔ c = ' ' ∨ c = '\t' ∨ c = '\r' ∨ c = '\n' := by
  simp [isBlank, or_assoc]

/-- A character that ends an atom finds the same tokens behind it whether the atom is still
pending or has just been finished. -/
theorem step_of_ends {c : Char} (ends : endsAtom c = true) (place start : Nat)
    (kept : List Char) (found : List Token) :
    step ⟨place, .code, some ⟨start, kept⟩, found⟩ c =
      step ⟨place, .code, none,
        ⟨.atom (String.ofList kept.reverse), ⟨start, place⟩⟩ :: found⟩ c := by
  have cases_c : (c = ' ' ∨ c = '\t' ∨ c = '\r' ∨ c = '\n') ∨ c = '(' ∨ c = ')' := by
    simpa [endsAtom, isBlank_iff, or_assoc] using ends
  simp only [step, take, flush]
  split
  · rfl
  · split
    · rfl
    · split
      · rfl
      · simp_all

/-- Any other character leaves the atom pending and is kept unless it belongs to a comment. -/
theorem step_of_not_ends {region : Region} {c : Char}
    (goes : (region = .code && endsAtom c) = false) (place start : Nat) (kept : List Char)
    (found : List Token) :
    step ⟨place, region, some ⟨start, kept⟩, found⟩ c =
      ⟨place + c.utf8Size, region.after c,
        some ⟨start, if region = .comment || region.after c = .comment then kept else c :: kept⟩,
        found⟩ := by
  cases region with
  | comment => simp [step, take, Region.after]
  | quoted =>
    by_cases quote : c = '"' <;> simp [step, take, keep, Region.after, quote]
  | code =>
    have inner : ¬ (c = ' ' ∨ c = '\t' ∨ c = '\r' ∨ c = '\n') ∧ c ≠ '(' ∧ c ≠ ')' := by
      simpa [endsAtom, ← isBlank_iff, and_assoc] using goes
    obtain ⟨notBlank, notOpen, notClose⟩ := inner
    by_cases comment : c = ';'
    · subst comment
      simp [step, take, Region.after]
    · by_cases quote : c = '"'
      · subst quote
        simp [step, take, keep, Region.after]
      · simp [step, take, keep, Region.after, notBlank, notOpen, notClose, comment, quote]

/-- A pending atom ends where splitting the text ends it, and its text is the piece without its
comments. -/
theorem tokens_of_pending (text : List Char) (place : Nat) (region : Region) (start : Nat)
    (kept : List Char) (found : List Token) :
    (text.foldl step ⟨place, region, some ⟨start, kept⟩, found⟩).tokens =
      ((Region.splitAt endsAtom region text).2.foldl step
        ⟨place + byteLength (Region.splitAt endsAtom region text).1, .code, none,
          ⟨.atom (String.ofList
              (dropComments.walk region kept (Region.splitAt endsAtom region text).1)),
            ⟨start, place + byteLength (Region.splitAt endsAtom region text).1⟩⟩ ::
            found⟩).tokens := by
  induction text generalizing place region kept with
  | nil => simp [tokens, flush, dropComments.walk]
  | cons c rest ih =>
    rw [Region.splitAt_cons]
    by_cases ends : (region = .code && endsAtom c) = true
    · have inCode : region = .code ∧ endsAtom c = true := by simpa using ends
      obtain ⟨rfl, ends'⟩ := inCode
      simp [ends', step_of_ends ends', dropComments.walk]
    · have goes : (region = .code && endsAtom c) = false := by simpa using ends
      rw [List.foldl_cons, step_of_not_ends goes, ih]
      simp only [goes, Bool.false_eq_true, ↓reduceIte, byteLength_cons, dropComments.walk,
        Nat.add_assoc]
      congr 8
      split <;> rfl

private theorem splitAt_always (text : List Char) :
    Region.splitAt (fun _ => true) .code text = ([], text) := by
  cases text with
  | nil => rfl
  | cons c rest => simp [Region.splitAt_cons]

private theorem tokens_of_comment (text : List Char) (place : Nat) (found : List Token) :
    (text.foldl step ⟨place, .comment, none, found⟩).tokens =
      ((Region.splitAt (fun _ => true) .comment text).2.foldl step
        ⟨place + byteLength (Region.splitAt (fun _ => true) .comment text).1, .code, none,
          found⟩).tokens := by
  induction text generalizing place with
  | nil => rfl
  | cons c rest ih =>
    rw [Region.splitAt_cons]
    by_cases newline : c = '\n'
    · simp [newline, step, take, Region.after, splitAt_always]
    · simp [newline, step, take, Region.after, ih, Nat.add_assoc]

theorem step_of_begins {c : Char} (notOpen : c ≠ '(') (notClose : c ≠ ')')
    (notBlank : ¬ isBlank c = true) (notComment : c ≠ ';') (place : Nat) (found : List Token) :
    step ⟨place, .code, none, found⟩ c =
      ⟨place + c.utf8Size, Region.code.after c, some ⟨place, [c]⟩, found⟩ := by
  rw [isBlank_iff] at notBlank
  by_cases quote : c = '"'
  · subst quote
    simp [step, take, keep, Region.after]
  · simp [step, take, keep, Region.after, notBlank, notOpen, notClose, notComment, quote]

private theorem dropComments_of_begins {c : Char} (notComment : c ≠ ';') (rest : List Char) :
    dropComments (c :: rest) = dropComments.walk (Region.code.after c) [c] rest := by
  have kept : Region.code.after c ≠ .comment := by
    simp only [Region.after, notComment, ↓reduceIte]
    split <;> simp
  simp [dropComments, dropComments.walk, kept]

private theorem step_of_blank {c : Char} (blank : isBlank c = true) (place : Nat)
    (found : List Token) :
    step ⟨place, .code, none, found⟩ c = ⟨place + 1, .code, none, found⟩ := by
  rcases isBlank_iff.mp blank with rfl | rfl | rfl | rfl <;> rfl

/-- From outside an atom on, both ways of cutting a text find the same tokens. -/
theorem scan_eq_foldl_step (offset : Nat) (found : List Token) (text : List Char) :
    scan offset found text = (text.foldl step ⟨offset, .code, none, found⟩).tokens := by
  fun_induction scan offset found text with
  | case1 offset found => simp [tokens, flush]
  | case2 offset found rest ih =>
    rw [ih]
    rfl
  | case3 offset found rest notOpen ih =>
    rw [ih]
    rfl
  | case4 offset found c rest notOpen notClose blank ih =>
    rw [ih, List.foldl_cons, step_of_blank blank]
  | case5 offset found rest notOpen notClose notBlank piece stop ih =>
    have skipped := tokens_of_comment rest (offset + ';'.utf8Size) found
    rw [ih, List.foldl_cons]
    exact skipped.symm
  | case6 offset found c rest notOpen notClose notBlank piece stop notComment ih =>
    have collected := tokens_of_pending rest (offset + c.utf8Size) (Region.code.after c) offset [c]
      found
    have delimited : piece = Region.splitAt endsAtom (Region.code.after c) rest := by
      simp [piece, notComment]
    rw [ih, List.foldl_cons, step_of_begins notOpen notClose notBlank notComment, collected,
      dropComments_of_begins notComment, ← delimited]

end Pass

theorem ofString_eq_onePass (source : String) : ofString source = onePass source :=
  Pass.scan_eq_foldl_step 0 [] source.toList

end EagerLisp.Token
