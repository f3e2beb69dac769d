import EagerLisp.Proofs.Token.Join

namespace EagerLisp.Token

/-- From the region given on, nothing in the text ends an atom or begins a comment. -/
def solid : Region → List Char → Bool
  | _, [] => true
  | region, c :: rest =>
    !(region = .code && (endsAtom c || c = ';')) && solid (region.after c) rest

/-- The text of an atom. -/
structure IsAtom (text : List Char) : Prop where
  begun : text ≠ []
  solid : solid .code text

/-- The text of an atom all of whose quoted stretches are closed. -/
structure IsClosedAtom (text : List Char) : Prop extends IsAtom text where
  closed : text.foldl Region.after .code = .code

theorem solid_append (region : Region) (front back : List Char) :
    solid region (front ++ back) =
      (solid region front && solid (front.foldl Region.after region) back) := by
  induction front generalizing region with
  | nil => simp [solid]
  | cons c rest ih => simp only [List.cons_append, solid, List.foldl_cons, ih, Bool.and_assoc]

theorem solid_cons {region : Region} {c : Char} {rest : List Char} :
    solid region (c :: rest) = true ↔
      (region = .code → endsAtom c = false ∧ c ≠ ';') ∧ solid (region.after c) rest = true := by
  cases region <;> simp [solid]

theorem after_ne_comment {region : Region} {c : Char} (outside : region ≠ .comment)
    (begins : region = .code → c ≠ ';') : region.after c ≠ .comment := by
  cases region with
  | comment => exact absurd rfl outside
  | quoted =>
    simp only [Region.after]
    split <;> simp
  | code =>
    simp only [Region.after, begins rfl, ↓reduceIte]
    split <;> simp

theorem IsClosedAtom.of_plain {text : List Char} (begun : text ≠ [])
    (plain : ∀ c ∈ text, endsAtom c = false ∧ c ≠ ';' ∧ c ≠ '"') : IsClosedAtom text := by
  have through : solid .code text = true ∧ text.foldl Region.after .code = .code := by
    clear begun
    induction text with
    | nil => exact ⟨rfl, rfl⟩
    | cons c rest ih =>
      obtain ⟨goes, notComment, notQuote⟩ := plain c List.mem_cons_self
      obtain ⟨inside, closed⟩ := ih fun other member => plain other (List.mem_cons_of_mem c member)
      have stays : Region.code.after c = .code := by simp [Region.after, notComment, notQuote]
      rw [solid_cons, List.foldl_cons, stays]
      exact ⟨⟨fun _ => ⟨goes, notComment⟩, inside⟩, closed⟩
  exact ⟨⟨begun, through.1⟩, through.2⟩

theorem IsClosedAtom.quoted {text : List Char} (plain : '"' ∉ text) :
    IsClosedAtom ('"' :: text ++ ['"']) := by
  have through : solid .quoted text = true ∧ text.foldl Region.after .quoted = .quoted := by
    induction text with
    | nil => exact ⟨rfl, rfl⟩
    | cons c rest ih =>
      obtain ⟨notQuote, others⟩ : '"' ≠ c ∧ '"' ∉ rest := by simpa using plain
      have stays : Region.quoted.after c = .quoted := by simp [Region.after, Ne.symm notQuote]
      obtain ⟨inside, still⟩ := ih others
      rw [solid_cons, List.foldl_cons, stays]
      exact ⟨⟨by simp, inside⟩, still⟩
  obtain ⟨inside, still⟩ := through
  have begins : Region.code.after '"' = .quoted := rfl
  refine ⟨⟨by simp, ?_⟩, ?_⟩
  · rw [List.cons_append, solid_cons, begins, solid_append, inside, still]
    exact ⟨fun _ => ⟨rfl, by decide⟩, rfl⟩
  · rw [List.cons_append, List.foldl_cons, begins, List.foldl_append, still]
    rfl

namespace Pass

/-- A pass that an atom is pending in collects the whole of a solid text. -/
theorem foldl_step_solid {text : List Char} {region : Region} (inside : solid region text = true)
    (outside : region ≠ .comment) (place start : Nat) (kept : List Char) (found : List Token) :
    text.foldl step ⟨place, region, some ⟨start, kept⟩, found⟩ =
      ⟨place + byteLength text, text.foldl Region.after region,
        some ⟨start, text.reverse ++ kept⟩, found⟩ := by
  induction text generalizing region place kept with
  | nil => rfl
  | cons c rest ih =>
    obtain ⟨here, further⟩ := solid_cons.mp inside
    have goes : (region = .code && endsAtom c) = false := by
      simpa using fun code => (here code).1
    have next : region.after c ≠ .comment := after_ne_comment outside fun code => (here code).2
    rw [List.foldl_cons, step_of_not_ends goes, ih further next]
    simp [outside, next, Nat.add_assoc]

end Pass

/-- The text of an atom has that atom for its only token, and it fills the text. -/
theorem IsAtom.scan_eq {text : List Char} (atom : IsAtom text) :
    scan 0 [] text = [⟨.atom (String.ofList text), ⟨0, byteLength text⟩⟩] := by
  obtain ⟨begun, inside⟩ := atom
  cases text with
  | nil => exact absurd rfl begun
  | cons c rest =>
    obtain ⟨here, further⟩ := solid_cons.mp inside
    obtain ⟨goes, notComment⟩ := here rfl
    obtain ⟨⟨notBlank, notOpen⟩, notClose⟩ : (isBlank c = false ∧ c ≠ '(') ∧ c ≠ ')' := by
      simpa [endsAtom, Bool.or_eq_false_iff] using goes
    have next : Region.code.after c ≠ .comment :=
      after_ne_comment (by simp) fun _ => notComment
    rw [Pass.scan_eq_foldl_step, List.foldl_cons,
      Pass.step_of_begins notOpen notClose (by simp [notBlank]) notComment,
      Pass.foldl_step_solid further next]
    simp [Pass.tokens, Pass.flush]

theorem IsAtom.lexemes_eq {text : List Char} (atom : IsAtom text) :
    lexemes text = [.atom (String.ofList text)] := by
  rw [lexemes, atom.scan_eq]
  rfl

theorem IsClosedAtom.cuts {text : String} (atom : IsClosedAtom text.toList) :
    Cuts text [.atom text] :=
  ⟨by simpa using atom.toIsAtom.lexemes_eq, atom.closed⟩

namespace Pass

/-- The atoms of a pass: those found are closed, and the pending one is open exactly if the pass has
come to a quoted stretch. -/
structure Cut (pass : Pass) : Prop where
  found : ∀ token ∈ pass.found, ∀ text, token.lexeme = .atom text → IsClosedAtom text.toList
  pending : ∀ pending, pass.pending? = some pending → IsAtom pending.kept.reverse ∧
    pending.kept.reverse.foldl Region.after .code = if pass.region = .quoted then .quoted else .code
  idle : pass.pending? = none → pass.region ≠ .quoted

variable {pass : Pass}

private theorem Cut.flush (cut : Cut pass) (closed : pass.region ≠ .quoted) : Cut pass.flush := by
  unfold Pass.flush
  split
  case h_1 => exact cut
  case h_2 start kept same =>
    obtain ⟨atom, region⟩ := cut.pending _ same
    rw [if_neg closed] at region
    refine ⟨fun token member text lexeme => ?_, by simp, fun _ => closed⟩
    rcases List.mem_cons.mp member with rfl | earlier
    · cases lexeme
      rw [String.toList_ofList]
      exact ⟨atom, region⟩
    · exact cut.found token earlier text lexeme

private theorem Cut.emit (cut : Cut pass) {lexeme : Lexeme} (paren : ∀ text, lexeme ≠ .atom text) :
    Cut (pass.emit lexeme) := by
  refine ⟨fun token member text same => ?_, cut.pending, cut.idle⟩
  rcases List.mem_cons.mp member with rfl | earlier
  · exact absurd same (paren text)
  · exact cut.found token earlier text same

private theorem Cut.keep (cut : Cut pass) {c : Char} (outside : pass.region ≠ .comment)
    (here : pass.region = .code → endsAtom c = false ∧ c ≠ ';') :
    Cut { pass.keep c with region := pass.region.after c } := by
  have begun : ∃ kept, (pass.pending?.getD ⟨pass.place, []⟩).kept = kept ∧
      solid .code kept.reverse = true ∧ kept.reverse.foldl Region.after .code = pass.region := by
    refine ⟨_, rfl, ?_⟩
    cases same : pass.pending? with
    | none =>
      have idle := cut.idle same
      cases region : pass.region <;> simp_all [solid]
    | some pending =>
      obtain ⟨atom, region⟩ := cut.pending pending same
      refine ⟨atom.solid, region.trans ?_⟩
      cases region : pass.region <;> simp_all
  obtain ⟨kept, same, inside, region⟩ := begun
  refine ⟨cut.found, fun pending begun => ?_, by simp [Pass.keep]⟩
  have collected : pending.kept.reverse = kept.reverse ++ [c] := by
    simp only [Pass.keep, same, Option.some.injEq] at begun
    simp [← begun]
  have next : pass.region.after c ≠ .comment := after_ne_comment outside fun code => (here code).2
  rw [collected, List.foldl_append, region]
  refine ⟨⟨by simp, ?_⟩, ?_⟩
  · rw [solid_append, region, inside]
    exact solid_cons.mpr ⟨here, rfl⟩
  · cases after : pass.region.after c <;> simp_all

private theorem Cut.unquoted (cut : Cut pass) (was : pass.region ≠ .quoted) {region : Region}
    (becomes : region ≠ .quoted) : Cut { pass with region } := by
  refine ⟨cut.found, fun pending same => ?_, fun _ => becomes⟩
  have before := cut.pending pending same
  rw [if_neg was] at before
  rw [if_neg becomes]
  exact before

private theorem Cut.move (cut : Cut pass) (place : Nat) : Cut { pass with place } :=
  ⟨cut.found, cut.pending, cut.idle⟩

private theorem Cut.step (cut : Cut pass) (c : Char) : Cut (pass.step c) := by
  refine Cut.move ?_ _
  unfold take
  split
  case h_1 comment =>
    refine cut.unquoted (by simp [comment]) ?_
    split <;> simp
  case h_2 quoted =>
    have kept := cut.keep (c := c) (by simp [quoted]) (by simp [quoted])
    rwa [quoted] at kept
  case h_3 code =>
    have flushed := cut.flush (by simp [code])
    split_ifs with opening closing blank comment quote
    · exact flushed.emit (by simp)
    · exact flushed.emit (by simp)
    · exact flushed
    · exact cut.unquoted (by simp [code]) (by simp)
    -- A quote and any other character are both kept; only the region behind them differs.
    all_goals
      have goes : endsAtom c = false := by
        simp [endsAtom, opening, closing, Bool.eq_false_iff, isBlank_iff, blank]
      have kept := cut.keep (c := c) (by simp [code]) fun _ => ⟨goes, comment⟩
      rw [code] at kept
      simpa [Region.after, quote, comment, Pass.keep, code] using kept

theorem Cut.foldl_step (cut : Cut pass) (text : List Char) : Cut (text.foldl Pass.step pass) := by
  induction text generalizing pass with
  | nil => exact cut
  | cons c rest ih => exact ih (cut.step c)

end Pass

theorem cut_ofString (source : String) :
    ∃ pass : Pass, pass.Cut ∧ ofString source = pass.tokens := by
  have start : Pass.start.Cut := ⟨by simp [Pass.start], by simp [Pass.start], by simp [Pass.start]⟩
  exact ⟨_, start.foldl_step source.toList, ofString_eq_onePass source⟩

theorem isAtom_of_mem {source : String} {token : Token} (member : token ∈ ofString source)
    {text : String} (same : token.lexeme = .atom text) : IsAtom text.toList := by
  obtain ⟨pass, cut, tokens⟩ := cut_ofString source
  rw [tokens, Pass.tokens, List.mem_reverse, Pass.flush] at member
  split at member
  case h_1 => exact (cut.found token member text same).toIsAtom
  case h_2 start kept pending =>
    rcases List.mem_cons.mp member with rfl | earlier
    · cases same
      rw [String.toList_ofList]
      exact (cut.pending _ pending).1
    · exact (cut.found token earlier text same).toIsAtom

/-- Only the last token can be an atom with an open quoted stretch. -/
theorem isClosedAtom_of_mem_dropLast {source : String} {token : Token}
    (member : token ∈ (ofString source).dropLast) {text : String}
    (same : token.lexeme = .atom text) : IsClosedAtom text.toList := by
  obtain ⟨pass, cut, tokens⟩ := cut_ofString source
  rw [tokens, Pass.tokens, Pass.flush] at member
  refine cut.found token ?_ text same
  split at member
  case h_1 => exact List.mem_reverse.mp ((List.dropLast_sublist _).mem member)
  case h_2 start kept pending => simpa using member

end EagerLisp.Token
