import EagerLisp.Proofs.Token.Order
import EagerLisp.Proofs.Token.Solid

namespace EagerLisp.Token

namespace Pass

/-- A pass that begins at a place of a longer text, where the earlier tokens have been found. -/
abbrev afresh (place : Nat) (earlier : List Token) : Pass :=
  start.behind place earlier.reverse

/-- At the byte `place` the text goes on, as far as its tokens go, as if it began there. -/
def Begins (text : List Char) (place : Nat) (earlier : List Token) : Prop :=
  ∃ front c back, text = front ++ c :: back ∧ byteLength front = place ∧
    (ofText front).step c = (afresh place earlier).step c

/-- The part of the text in front of the byte `place` has the tokens. -/
def Ends (text : List Char) (place : Nat) (tokens : List Token) : Prop :=
  ∃ front back, text = front ++ back ∧ byteLength front = place ∧ (ofText front).tokens = tokens

/-- The token begins a piece of the text behind the earlier tokens, and it ends one with them. -/
structure Bounds (text : List Char) (earlier : List Token) (token : Token) : Prop where
  begins : Begins text token.span.start earlier
  ends : Ends text token.span.stop (earlier ++ [token])

/-- All tokens of the text bound pieces of it, and so will the atom that is pending at its end. -/
structure Pieced (text : List Char) : Prop where
  found : ∀ earlier token later, (ofText text).found.reverse = earlier ++ token :: later →
    Bounds text earlier token
  pending : ∀ pending, (ofText text).pending? = some pending →
    Begins text pending.start (ofText text).found.reverse

variable {text : List Char} {place : Nat} {earlier tokens : List Token} {token : Token}

theorem Begins.append (begins : Begins text place earlier) (more : List Char) :
    Begins (text ++ more) place earlier := by
  obtain ⟨front, c, back, rfl, length, same⟩ := begins
  exact ⟨front, c, back ++ more, by simp, length, same⟩

private theorem Ends.append (ends : Ends text place tokens) (more : List Char) :
    Ends (text ++ more) place tokens := by
  obtain ⟨front, back, rfl, length, same⟩ := ends
  exact ⟨front, back ++ more, by simp, length, same⟩

private theorem Bounds.append (bounds : Bounds text earlier token) (more : List Char) :
    Bounds (text ++ more) earlier token :=
  ⟨bounds.begins.append more, bounds.ends.append more⟩

theorem Ends.last (text : List Char) : Ends text (byteLength text) (ofText text).tokens :=
  ⟨text, [], by simp, rfl, rfl⟩

theorem cut_ofText (text : List Char) : (ofText text).Cut := by
  have start : Pass.start.Cut := ⟨by simp [Pass.start], by simp [Pass.start], by simp [Pass.start]⟩
  exact start.foldl_step text

theorem flush_of_none {pass : Pass} (none : pass.pending? = none) : pass.flush = pass := by
  rw [flush, none]

/-- A pass in code whose pending atom has ended might as well begin there. -/
theorem flush_eq_afresh (code : (ofText text).region = .code) :
    (ofText text).flush = afresh (byteLength text) (ofText text).tokens := by
  have place := ofText_place text
  unfold tokens
  generalize ofText text = pass at code place
  obtain ⟨_, _, pending?, found⟩ := pass
  subst code place
  cases pending? <;> simp [flush, behind, start]

/-- What a character does to a pass: nothing to its tokens, or it begins an atom, or it ends the one
that is pending and may be a token by itself. -/
theorem step_cases {pass : Pass} (cut : Cut pass) (c : Char) :
    ((pass.step c).found = pass.found ∧
      (pass.step c).pending?.map Pending.start = pass.pending?.map Pending.start) ∨
    (pass.region = .code ∧ pass.pending? = none ∧ (pass.step c).found = pass.found ∧
      (pass.step c).pending?.map Pending.start = some pass.place) ∨
    (pass.region = .code ∧ endsAtom c = true ∧ (pass.step c).pending? = none ∧
      ((pass.step c).found = pass.flush.found ∨ ∃ lexeme, (pass.step c).found =
        ⟨lexeme, ⟨pass.place, pass.place + c.utf8Size⟩⟩ :: pass.flush.found)) := by
  have finished := flush_pending? pass
  simp only [step, take]
  split
  case h_1 => exact .inl ⟨rfl, rfl⟩
  case h_2 quoted =>
    cases same : pass.pending? with
    | none => exact absurd quoted (cut.idle same)
    | some begun => exact .inl ⟨rfl, by simp [keep, same]⟩
  case h_3 code =>
    split_ifs with opening closing blank comment quote
    · subst opening
      refine .inr (.inr ⟨code, by decide, finished, .inr ⟨.openParen, ?_⟩⟩)
      rw [emit, flush_place]
      rfl
    · subst closing
      refine .inr (.inr ⟨code, by decide, finished, .inr ⟨.closeParen, ?_⟩⟩)
      rw [emit, flush_place]
      rfl
    · have ends : endsAtom c = true := by simp [endsAtom, isBlank_iff.mpr blank]
      exact .inr (.inr ⟨code, ends, finished, .inl rfl⟩)
    · exact .inl ⟨rfl, rfl⟩
    all_goals
      cases same : pass.pending? with
      | none => exact .inr (.inl ⟨code, rfl, rfl, by simp [keep, same]⟩)
      | some begun => exact .inl ⟨rfl, by simp [keep, same]⟩

theorem Pieced.flush (pieced : Pieced text) {later : List Token}
    (same : (ofText text).flush.found.reverse = earlier ++ token :: later) :
    Bounds text earlier token := by
  have ends := Ends.last text
  rw [Pass.tokens] at ends
  unfold Pass.flush at same ends
  split at same
  case h_1 => exact pieced.found earlier token later same
  case h_2 start kept pending =>
    rw [pending] at ends
    simp only [List.reverse_cons] at same ends
    rcases split_snoc_cases same with ⟨rfl, rfl, _⟩ | ⟨between, whole, _⟩
    · rw [← ofText_place] at ends
      exact ⟨pieced.pending _ pending, ends⟩
    · exact pieced.found earlier token between whole

private theorem Pieced.step (pieced : Pieced text) (c : Char) : Pieced (text ++ [c]) := by
  have split := ofText_snoc text c
  have extended (earlier : List Token) (token : Token) (later : List Token)
      (same : (ofText text).found.reverse = earlier ++ token :: later) :
      Bounds (text ++ [c]) earlier token := (pieced.found earlier token later same).append [c]
  rcases step_cases (cut_ofText text) c with ⟨found, pending⟩ | ⟨code, none, found, pending⟩ |
      ⟨code, ends, none, found⟩
  · refine ⟨by rwa [split, found], fun begun same => ?_⟩
    rw [split] at same
    rw [same, Option.map_some, eq_comm, Option.map_eq_some_iff] at pending
    obtain ⟨before, present, start⟩ := pending
    rw [split, found, ← start]
    exact (pieced.pending before present).append [c]
  · refine ⟨by rwa [split, found], fun begun same => ?_⟩
    rw [split] at same
    rw [same, Option.map_some, Option.some.injEq, ofText_place] at pending
    have idle := flush_of_none none
    have afresh := flush_eq_afresh code
    rw [idle, Pass.tokens, idle] at afresh
    rw [split, found, pending]
    exact ⟨text, c, [], rfl, rfl, congrArg (·.step c) afresh⟩
  · refine ⟨fun earlier token later same => ?_, by simp [split, none]⟩
    rw [split] at same
    rcases found with found | ⟨lexeme, found⟩
    · rw [found] at same
      exact (pieced.flush same).append [c]
    · rw [found, List.reverse_cons] at same
      rcases split_snoc_cases same with ⟨rfl, rfl, _⟩ | ⟨between, whole, _⟩
      · have afresh := flush_eq_afresh code
        rw [Pass.tokens, ← ofText_place] at afresh
        have ended := Ends.last (text ++ [c])
        rw [Pass.tokens, split, flush_of_none none, found, List.reverse_cons, byteLength_append,
          byteLength_cons, byteLength_nil, Nat.add_zero, ← ofText_place] at ended
        refine ⟨⟨text, c, [], rfl, (ofText_place text).symm, ?_⟩, ended⟩
        exact (step_flush _ code ends).symm.trans (congrArg (·.step c) afresh)
      · exact (pieced.flush whole).append [c]

private theorem pieced (text : List Char) : Pieced text := by
  induction text using List.reverseRecOn with
  | nil => exact ⟨by simp [Pass.start], by simp [Pass.start]⟩
  | append_singleton front c ih => exact ih.step c

end Pass

/-- What stands from the beginning of one token to the end of another one is cut by itself into the
tokens that the whole text has there, as much further on as the piece begins. -/
theorem exists_piece {text : List Char} {pre segment post tail inner : List Token}
    {first last : Token} (whole : scan 0 [] text = pre ++ segment ++ post)
    (begins : segment = first :: tail) (ends : segment = inner ++ [last])
    (wide : first.span.start < last.span.stop) :
    ∃ front piece back, text = front ++ piece ++ back ∧
      byteLength front = first.span.start ∧ byteLength (front ++ piece) = last.span.stop ∧
        segment = (scan 0 [] piece).map (shift first.span.start) := by
  have bounds {earlier later : List Token} {token : Token}
      (same : pre ++ segment ++ post = earlier ++ token :: later) :
      Pass.Bounds text earlier token := by
    rw [Pass.scan_eq_foldl_step] at whole
    exact (Pass.pieced text).flush (whole.trans same)
  obtain ⟨front, c, rest, split, begun, afresh⟩ :=
    (bounds (by simp [begins] : _ = pre ++ first :: (tail ++ post))).begins
  obtain ⟨body, back, cut, ended, found⟩ :=
    (bounds (by simp [ends] : _ = (pre ++ inner) ++ last :: post)).ends
  have longer : byteLength front < byteLength body := by omega
  obtain ⟨between, rfl⟩ : ∃ between, body = front ++ c :: between := by
    rcases List.append_eq_append_iff.mp (split.symm.trans cut) with
      ⟨more, rfl, head⟩ | ⟨more, rfl, _⟩
    · cases more with
      | nil => simp at longer
      | cons d more =>
        cases head
        exact ⟨more, rfl⟩
    · rw [byteLength_append] at longer
      omega
  refine ⟨front, c :: between, back, cut, begun, ended, ?_⟩
  -- From the first character of the piece on, both passes are in the same state.
  have behind : Pass.ofText (front ++ c :: between) =
      (Pass.ofText (c :: between)).behind first.span.start pre.reverse := by
    rw [Pass.ofText, List.foldl_append, List.foldl_cons, afresh, ← List.foldl_cons,
      Pass.foldl_step_behind]
  rw [behind, Pass.tokens_behind, List.reverse_reverse, List.append_assoc, ← ends] at found
  rw [Pass.scan_eq_foldl_step]
  exact (List.append_cancel_left found).symm

end EagerLisp.Token
