import EagerLisp.Console.Completion
import EagerLisp.Interpreter
import EagerLisp.Proofs.Text.Stretch
import EagerLisp.Proofs.Token.Piece

namespace EagerLisp

open Token

theorem mem_sortedNames {names : List String} {name : String} :
    name ∈ sortedNames names ↔ name ∈ names := by
  rw [sortedNames, List.mem_mergeSort, List.mem_eraseDups]

namespace Token.Pass

variable {pass : Pass} {bound : Nat}

/-- What the last token would stand for if the text ended here. -/
def last? (pass : Pass) : Option Lexeme :=
  match pass.pending? with
  | some pending => some (.atom (String.ofList pending.kept.reverse))
  | none => pass.found.head?.map lexeme

theorem getLast?_tokens (pass : Pass) : pass.tokens.getLast?.map lexeme = pass.last? := by
  rw [tokens, List.getLast?_reverse, last?, flush]
  split <;> simp [*]

private theorem last?_flush (pass : Pass) : pass.flush.last? = pass.last? := by
  obtain ⟨place, region, pending?, found⟩ := pass
  cases pending? <;> rfl

/-- An atom that would be the last token has at most this many characters. -/
def LastWithin (bound : Nat) (pass : Pass) : Prop :=
  ∀ text, pass.last? = some (.atom text) → text.length ≤ bound

private theorem LastWithin.more (within : LastWithin bound pass) : LastWithin (bound + 1) pass :=
  fun text same => Nat.le_succ_of_le (within text same)

private theorem LastWithin.keep (within : LastWithin bound pass) (c : Char) :
    LastWithin (bound + 1) (pass.keep c) := by
  intro text same
  cases same
  cases begun : pass.pending? with
  | none => simp
  | some pending =>
    have before := within (String.ofList pending.kept.reverse) (by rw [last?, begun])
    simpa using before

private theorem LastWithin.emit {lexeme : Lexeme} (paren : ∀ text, lexeme ≠ .atom text)
    (pass : Pass) :
    LastWithin bound (pass.flush.emit lexeme) := by
  intro text same
  have finished : (pass.flush.emit lexeme).pending? = none := flush_pending? pass
  rw [last?, finished] at same
  exact absurd (Option.some.inj same) (paren text)

private theorem LastWithin.step (within : LastWithin bound pass) (c : Char) :
    LastWithin (bound + 1) (pass.step c) := by
  have flushed : LastWithin (bound + 1) pass.flush := by
    rw [LastWithin, last?_flush]
    exact within.more
  simp only [Pass.step, Pass.take]
  split
  case h_1 => exact within.more
  case h_2 => exact within.keep c
  case h_3 =>
    split_ifs
    · exact LastWithin.emit (by simp) pass
    · exact LastWithin.emit (by simp) pass
    · exact flushed
    · exact within.more
    · exact within.keep c
    · exact within.keep c

private theorem LastWithin.foldl_step (within : LastWithin bound pass) (text : List Char) :
    LastWithin (bound + text.length) (text.foldl Pass.step pass) := by
  induction text generalizing pass bound with
  | nil => exact within
  | cons c rest ih =>
    have further := ih (within.step c)
    rwa [Nat.add_right_comm, Nat.add_assoc] at further

private theorem Ordered.ends_before (ordered : Ordered pass) {c : Char} {token : Token}
    (member : token ∈ (pass.step c).found) {text : String} (atom : token.lexeme = .atom text) :
    token.span.stop ≤ pass.place := by
  have flushed : ∀ token ∈ pass.flush.found, token.span.stop ≤ pass.place := by
    intro token member
    have ended := (ordered.flush.taken token member).2
    rwa [flush_place] at ended
  have emitted {lexeme : Lexeme} (paren : ∀ text, lexeme ≠ .atom text)
      (member : token ∈ (pass.flush.emit lexeme).found) : token.span.stop ≤ pass.place := by
    rcases List.mem_cons.mp member with rfl | earlier
    · exact absurd atom (paren text)
    · exact flushed token earlier
  simp only [Pass.step, Pass.take] at member
  split at member
  case h_1 => exact (ordered.taken token member).2
  case h_2 => exact (ordered.taken token member).2
  case h_3 =>
    split_ifs at member
    · exact emitted (by simp) member
    · exact emitted (by simp) member
    · exact flushed token member
    · exact (ordered.taken token member).2
    · exact (ordered.taken token member).2
    · exact (ordered.taken token member).2

private theorem pending_of_reaches {text : List Char} {token : Token}
    (last : (ofText text).tokens.getLast? = some token) {name : String}
    (atom : token.lexeme = .atom name) (reaches : token.span.stop = byteLength text) :
    ∃ start kept, (ofText text).pending? = some ⟨start, kept⟩ ∧
      name = String.ofList kept.reverse := by
  have same : (ofText text).last? = some (.atom name) := by
    rw [← getLast?_tokens, last, Option.map_some, atom]
  cases pending : (ofText text).pending? with
  | some begun =>
    obtain ⟨start, kept⟩ := begun
    rw [last?, pending] at same
    cases same
    exact ⟨start, kept, rfl, rfl⟩
  | none =>
    rw [tokens, List.getLast?_reverse, flush_of_none pending] at last
    have member := List.mem_of_mem_head? last
    rcases List.eq_nil_or_concat text with rfl | ⟨front, c, rfl⟩
    · simp [Pass.start] at member
    · -- The atom was finished by the last character or before it, and that takes up some place.
      rw [List.concat_eq_append] at member reaches
      rw [ofText_snoc] at member
      have before := (Ordered.start.foldl_step front).ends_before member atom
      have wide := c.utf8Size_pos
      rw [ofText_place] at before
      rw [byteLength_append, byteLength_cons] at reaches
      omega

end Token.Pass

namespace Completion

variable {front stem candidate : String}

theorem firstBytes_append (front back : List Char) :
    firstBytes (byteLength front) (front ++ back) = front := by
  induction front with
  | nil =>
    cases back with
    | nil => rfl
    | cons c rest =>
      have wide := c.utf8Size_pos
      rw [List.nil_append, firstBytes, byteLength_nil, if_neg (by omega)]
  | cons c rest ih =>
    rw [List.cons_append, firstBytes, byteLength_cons, if_pos (by omega), Nat.add_sub_cancel_left,
      ih]

private theorem pending_of_stem? {text : List Char} (same : stem? text = some stem) :
    ∃ start kept, (Pass.ofText text).pending? = some ⟨start, kept⟩ ∧
      stem = String.ofList kept.reverse := by
  unfold stem? at same
  rw [Pass.scan_eq_foldl_step] at same
  split at same
  case h_1 name span last =>
    split at same
    case isTrue reaches =>
      cases same
      obtain ⟨stop, _⟩ : span.stop = byteLength text ∧ stem.toList.head? ≠ some '"' := by
        simpa using reaches
      exact Pass.pending_of_reaches last rfl stop
    case isFalse => cases same
  case h_2 => cases same

private theorem append_of_continuation? {name : String}
    (same : continuation? stem name = some candidate) :
    stem ++ candidate = name ∧ candidate.toList ≠ [] := by
  unfold continuation? at same
  split at same
  case isFalse => cases same
  case isTrue continues =>
    cases same
    obtain ⟨begins, longer⟩ : stem.toList.isPrefixOf name.toList = true ∧
        stem.length < name.length := by simpa using continues
    obtain ⟨rest, whole⟩ := List.isPrefixOf_iff_prefix.mp begins
    have left : name.toList.drop stem.length = rest := by
      rw [← whole, ← String.length_toList, List.drop_left]
    refine ⟨?_, ?_⟩
    · rw [← String.toList_inj, String.toList_append, String.toList_ofList, left, whole]
    · rw [String.toList_ofList, left]
      rintro rfl
      rw [List.append_nil, String.toList_inj] at whole
      exact Nat.lt_irrefl _ (whole ▸ longer)

/-- Outside a comment, what completes the pending atom to the text of an atom is kept in it. -/
theorem last?_of_completed {front back : List Char} {start : Nat} {kept : List Char}
    (pending : (Pass.ofText front).pending? = some ⟨start, kept⟩)
    (outside : Region.behind front ≠ .comment) (atom : IsAtom (kept.reverse ++ back)) :
    (Pass.ofText (front ++ back)).last? = some (.atom (String.ofList (kept.reverse ++ back))) := by
  have reached := ((Pass.cut_ofText front).pending _ pending).2
  have inside := atom.solid
  rw [← Pass.ofText_region] at outside
  rw [solid_append, reached, Bool.and_eq_true] at inside
  have whole : Pass.ofText (front ++ back) = back.foldl Pass.step (Pass.ofText front) :=
    List.foldl_append
  rw [whole]
  generalize Pass.ofText front = pass at pending outside inside
  obtain ⟨place, region, _, found⟩ := pass
  subst pending
  -- An atom outside a comment is pending in the region that its own text ends in.
  have own : (if region = .quoted then Region.quoted else .code) = region := by
    cases region with
    | comment => exact absurd rfl outside
    | quoted => rfl
    | code => rfl
  rw [own] at inside
  rw [Pass.foldl_step_solid inside.2 outside, Pass.last?]
  simp

/-- In a comment, the first character at least of what is written belongs to it. -/
theorem lastWithin_of_comment {front back : List Char} {start : Nat} {kept : List Char}
    (pending : (Pass.ofText front).pending? = some ⟨start, kept⟩)
    (comment : Region.behind front = .comment) (c : Char) :
    Pass.LastWithin (kept.length + back.length) (Pass.ofText (front ++ c :: back)) := by
  rw [Pass.ofText, List.foldl_append, List.foldl_cons]
  refine Pass.LastWithin.foldl_step (fun text same => ?_) back
  rw [← Pass.ofText_region] at comment
  have skipped : ((Pass.ofText front).step c).pending? = some ⟨start, kept⟩ := by
    rw [Pass.step, Pass.take, comment]
    exact pending
  rw [Pass.last?, skipped] at same
  cases same
  simp

theorem mem_candidates_new {line : String} {cursor : Nat}
    (here : stem? (firstBytes cursor line.toList) = some "ca") :
    "r" ∈ candidates (Interpreter.new () defaultLimit).identifiers line cursor := by
  have known : "car" ∈ (Interpreter.new () defaultLimit).identifiers := by
    rw [Interpreter.identifiers, mem_sortedNames]
    decide +kernel
  rw [candidates, here]
  exact mem_sortedNames.mpr (List.mem_filterMap.mpr ⟨"car", known, by decide +kernel⟩)

theorem alone_car : (ofString ("ca" ++ "r")).map lexeme = [.atom ("ca" ++ "r")] := by
  rw [ofString, Pass.scan_eq_foldl_step]
  decide +kernel

/-- Accepting a candidate makes the name that it stands for the last token of the text in front of
the cursor, unless a comment is open there. It stands for one of the identifiers. -/
theorem accepting_completes_iff {σ : Type} (interpreter : Interpreter σ)
    (front back candidate : String) (offered : candidate ∈
      candidates interpreter.identifiers (front ++ back) front.utf8ByteSize) :
    ∃ stem, stem? front.toList = some stem ∧ stem ++ candidate ∈ interpreter.identifiers ∧
      ((ofString (stem ++ candidate)).map lexeme = [.atom (stem ++ candidate)] →
        ((ofString (front ++ candidate)).getLast?.map lexeme = some (.atom (stem ++ candidate)) ↔
          ¬EndsInside ';' '\n' front.toList)) := by
  have before : firstBytes front.utf8ByteSize (front ++ back).toList = front.toList := by
    have cursor := byteLength_eq_utf8ByteSize front.toList
    rw [String.ofList_toList] at cursor
    rw [String.toList_append, ← cursor, firstBytes_append]
  rw [candidates, before] at offered
  cases touched : stem? front.toList with
  | none =>
    rw [touched] at offered
    cases offered
  | some stem =>
    rw [touched] at offered
    obtain ⟨name, known, continued⟩ := List.mem_filterMap.mp (mem_sortedNames.mp offered)
    obtain ⟨rfl, some⟩ := append_of_continuation? continued
    refine ⟨stem, rfl, known, fun alone => ?_⟩
    obtain ⟨token, only, atom⟩ := List.map_eq_singleton_iff.mp alone
    have member : token ∈ ofString (stem ++ candidate) := by
      rw [only]
      exact List.mem_singleton_self token
    have solid := isAtom_of_mem member atom
    obtain ⟨start, kept, pending, rfl⟩ := pending_of_stem? touched
    rw [String.toList_append, String.toList_ofList] at solid
    have whole : (ofString (front ++ candidate)).getLast?.map lexeme =
        (Pass.ofText (front.toList ++ candidate.toList)).last? := by
      rw [← Pass.getLast?_tokens, ofString, Pass.scan_eq_foldl_step, String.toList_append]
      rfl
    have name : String.ofList kept.reverse ++ candidate =
        String.ofList (kept.reverse ++ candidate.toList) := by
      rw [String.ofList_append, String.ofList_toList]
    rw [whole, name, ← Region.behind_eq_comment]
    constructor
    · intro last comment
      cases written : candidate.toList with
      | nil => exact some written
      | cons c rest =>
        rw [written] at last
        have short := lastWithin_of_comment pending comment c _ last
        rw [String.length_ofList, List.length_append, List.length_reverse, List.length_cons]
          at short
        omega
    · intro outside
      exact last?_of_completed pending outside solid

/-- A comment in front of the cursor does no harm once its newline has closed it, even if it has
characters of two bytes. -/
theorem accepting_completes_behind_comment :
    "r" ∈ candidates (Interpreter.new () defaultLimit).identifiers ("(c;é\na" ++ " 1)")
        "(c;é\na".utf8ByteSize ∧
      (ofString ("(c;é\na" ++ "r")).getLast?.map lexeme = some (.atom "car") := by
  have here : stem? (firstBytes "(c;é\na".utf8ByteSize ("(c;é\na" ++ " 1)").toList) =
      some "ca" := by
    rw [stem?, Pass.scan_eq_foldl_step]
    decide +kernel
  have offered := mem_candidates_new here
  obtain ⟨stem, touched, _, completes⟩ := accepting_completes_iff _ _ _ _ offered
  have same : stem? "(c;é\na".toList = some "ca" := by
    rw [stem?, Pass.scan_eq_foldl_step]
    decide +kernel
  obtain rfl : "ca" = stem := Option.some.inj (same.symm.trans touched)
  have outside : ¬EndsInside ';' '\n' "(c;é\na".toList := by
    rw [← Region.behind_eq_comment]
    decide +kernel
  exact ⟨offered, (completes alone_car).mpr outside⟩

/-- The comment that the cursor is in swallows what is written: `ca` does not become the name that
was offered for it. -/
theorem accepting_not_completes_in_comment :
    "r" ∈ candidates (Interpreter.new () defaultLimit).identifiers "ca;x" 4 ∧
      stem? (firstBytes 4 "ca;x".toList) = some "ca" ∧
      (ofString ("ca" ++ "r")).map lexeme = [.atom ("ca" ++ "r")] ∧
      (ofString ("ca;x" ++ "r")).getLast?.map lexeme = some (.atom "ca") ∧
      (ofString ("ca;x" ++ "r")).getLast?.map lexeme ≠ some (.atom ("ca" ++ "r")) := by
  have here : stem? (firstBytes 4 "ca;x".toList) = some "ca" := by
    rw [stem?, Pass.scan_eq_foldl_step]
    decide +kernel
  have last : (ofString ("ca;x" ++ "r")).getLast?.map lexeme = some (.atom "ca") := by
    rw [ofString, Pass.scan_eq_foldl_step]
    decide +kernel
  refine ⟨mem_candidates_new here, here, alone_car, last, ?_⟩
  rw [last]
  decide

end Completion
end EagerLisp
