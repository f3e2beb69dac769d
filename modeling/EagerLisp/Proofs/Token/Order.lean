import EagerLisp.Proofs.Token.Place

namespace EagerLisp.Token

namespace Pass

/-- Everything that a pass has found or begun takes up some of what has been read, in order. -/
structure Ordered (pass : Pass) : Prop where
  taken : ∀ token ∈ pass.found, token.span.start < token.span.stop ∧ token.span.stop ≤ pass.place
  begun : ∀ pending, pass.pending? = some pending → pending.start < pass.place ∧
    ∀ token ∈ pass.found, token.span.stop ≤ pending.start
  found : pass.found.Pairwise fun later earlier => earlier.span.stop ≤ later.span.start

variable {pass : Pass}

theorem Ordered.start : Ordered start :=
  ⟨by simp [Pass.start], by simp [Pass.start], .nil⟩

theorem Ordered.flush (ordered : Ordered pass) : Ordered pass.flush := by
  unfold Pass.flush
  split
  case h_1 => exact ordered
  case h_2 start kept pending =>
    obtain ⟨some, behind⟩ := ordered.begun _ pending
    refine ⟨fun token member => ?_, by simp, List.pairwise_cons.mpr ⟨behind, ordered.found⟩⟩
    rcases List.mem_cons.mp member with rfl | earlier
    · exact ⟨some, Nat.le_refl _⟩
    · exact ordered.taken token earlier

theorem Ordered.move (ordered : Ordered pass) (region : Region) (c : Char) :
    Ordered { pass with region, place := pass.place + c.utf8Size } := by
  refine ⟨fun token member => ?_, fun pending same => ?_, ordered.found⟩
  · obtain ⟨some, within⟩ := ordered.taken token member
    exact ⟨some, Nat.le_add_right_of_le within⟩
  · obtain ⟨some, behind⟩ := ordered.begun pending same
    exact ⟨Nat.lt_add_right _ some, behind⟩

private theorem Ordered.keep (ordered : Ordered pass) (region : Region) (c : Char) :
    Ordered { pass.keep c with region, place := pass.place + c.utf8Size } := by
  have wide := c.utf8Size_pos
  refine ⟨(ordered.move region c).taken, fun pending same => ?_, ordered.found⟩
  cases same
  cases before : pass.pending? with
  | none =>
    refine ⟨?_, fun token member => (ordered.taken token member).2⟩
    simp only [Option.getD_none]
    omega
  | some pending =>
    obtain ⟨some, behind⟩ := ordered.begun pending before
    exact ⟨Nat.lt_add_right _ some, behind⟩

private theorem Ordered.emit (ordered : Ordered pass) (finished : pass.pending? = none)
    (lexeme : Lexeme) {c : Char} (narrow : c.utf8Size = 1) :
    Ordered { pass.emit lexeme with place := pass.place + c.utf8Size } := by
  have moved := ordered.move pass.region c
  refine ⟨fun token member => ?_, fun pending same => ?_, ?_⟩
  · rcases List.mem_cons.mp member with rfl | earlier
    · simp [narrow]
    · exact moved.taken token earlier
  · have none : pass.pending? = some pending := same
    rw [finished] at none
    cases none
  · exact List.pairwise_cons.mpr ⟨fun token member => (ordered.taken token member).2, ordered.found⟩

theorem flush_pending? (pass : Pass) : pass.flush.pending? = none := by
  obtain ⟨place, region, pending?, found⟩ := pass
  cases pending? <;> rfl

private theorem Ordered.step (ordered : Ordered pass) (c : Char) : Ordered (pass.step c) := by
  have finished := flush_pending? pass
  have flushed := ordered.flush
  simp only [Pass.step, Pass.take]
  split
  case h_1 => exact ordered.move _ c
  case h_2 => exact ordered.keep _ c
  case h_3 =>
    split_ifs with opening closing blank comment quote
    · subst opening
      have emitted := flushed.emit finished .openParen (c := '(') rfl
      rwa [flush_place] at emitted
    · subst closing
      have emitted := flushed.emit finished .closeParen (c := ')') rfl
      rwa [flush_place] at emitted
    · have moved := flushed.move pass.flush.region c
      rwa [flush_place] at moved
    · exact ordered.move _ c
    · exact ordered.keep _ c
    · exact ordered.keep _ c

theorem Ordered.foldl_step (ordered : Ordered pass) (text : List Char) :
    Ordered (text.foldl Pass.step pass) := by
  induction text generalizing pass with
  | nil => exact ordered
  | cons c rest ih => exact ih (ordered.step c)

end Pass

theorem start_lt_stop_of_mem {source : String} {token : Token} (member : token ∈ ofString source) :
    token.span.start < token.span.stop := by
  rw [ofString, Pass.scan_eq_foldl_step, Pass.tokens, List.mem_reverse] at member
  exact ((Pass.Ordered.start.foldl_step source.toList).flush.taken token member).1

theorem ofString_ordered (source : String) :
    (ofString source).Pairwise fun earlier later => earlier.span.stop ≤ later.span.start := by
  rw [ofString, Pass.scan_eq_foldl_step, Pass.tokens, List.pairwise_reverse]
  exact (Pass.Ordered.start.foldl_step source.toList).flush.found

/-- The tokens begin one behind the other. -/
abbrev Increasing (tokens : List Token) : Prop :=
  tokens.Pairwise fun earlier later => earlier.span.start < later.span.start

theorem ofString_increasing (source : String) : Increasing (ofString source) := by
  refine List.Pairwise.imp_of_mem ?_ (ofString_ordered source)
  intro earlier later member _ apart
  exact Nat.lt_of_lt_of_le (start_lt_stop_of_mem member) apart

namespace Increasing

variable {tokens : List Token} {token other : Token}

/-- Where tokens begin one behind the other, there is one place only where a token stands that
begins at a given byte. -/
theorem split_unique (increasing : Increasing tokens) {front after before behind : List Token}
    (first : tokens = front ++ token :: after) (second : tokens = before ++ other :: behind)
    (same : token.span.start = other.span.start) :
    front = before ∧ token = other ∧ after = behind := by
  subst first
  obtain ⟨_, later, _⟩ := List.pairwise_append.mp increasing
  rw [second] at increasing
  obtain ⟨_, further, _⟩ := List.pairwise_append.mp increasing
  rcases split_cases second with equal | ⟨between, _, rfl⟩ | ⟨between, _, rfl⟩
  · exact equal
  · have impossible := List.rel_of_pairwise_cons later
      (List.mem_append_right between (List.mem_cons_self ..))
    omega
  · have impossible := List.rel_of_pairwise_cons further
      (List.mem_append_right between (List.mem_cons_self ..))
    omega

theorem eq_of_start (increasing : Increasing tokens) (member : token ∈ tokens)
    (present : other ∈ tokens) (same : token.span.start = other.span.start) : token = other := by
  obtain ⟨front, after, first⟩ := List.append_of_mem member
  obtain ⟨before, behind, second⟩ := List.append_of_mem present
  exact (increasing.split_unique first second same).2.1

end Increasing

end EagerLisp.Token
