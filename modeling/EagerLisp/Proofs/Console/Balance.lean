import EagerLisp.Console.Completion
import EagerLisp.Proofs.Node.Outcome
import EagerLisp.Proofs.Token.Parens

/-! What a console says about a text against what reading the text comes to. The console looks at
characters and counts parentheses, the reader looks at tokens and keeps a stack; the parentheses
that the console counts are exactly those that become tokens, so the two agree on every text that is
not nested too deep. -/
namespace EagerLisp

/-- How many characters of the text begin before the byte at `offset`. -/
def charactersBefore (offset : Nat) : List Char → Nat
  | [] => 0
  | c :: rest => if offset = 0 then 0 else charactersBefore (offset - c.utf8Size) rest + 1

theorem charactersBefore_byteLength (front back : List Char) :
    charactersBefore (Token.byteLength front) (front ++ back) = front.length := by
  induction front with
  | nil => cases back <;> rfl
  | cons c front ih =>
    have wide := c.utf8Size_pos
    have rest : c.utf8Size + Token.byteLength front - c.utf8Size = Token.byteLength front := by
      omega
    rw [List.cons_append, charactersBefore, Token.byteLength_cons, if_neg (by omega), rest, ih,
      List.length_cons]

/-- The text ends inside a quoted stretch. -/
def EndsQuoted (text : List Char) : Prop :=
  text.foldl Region.after .code = .quoted

instance (text : List Char) : Decidable (EndsQuoted text) :=
  inferInstanceAs (Decidable (_ = _))

namespace Balance

open EagerLisp.Token

/-- What the console says about a text, with the reason that its tokens give for it. -/
inductive Judges (text : List Char) (tokens : List Token) : Balance → Prop where
  | unmatched {before after : List Token} {span : Span}
      (found : tokens = before ++ ⟨.closeParen, span⟩ :: after) (shut : LeavesOpen before []) :
      Judges text tokens (.unmatched (charactersBefore span.start text))
  | incomplete {stack : List Span} (leaves : LeavesOpen tokens stack)
      (wanting : EndsQuoted text ∨ 0 < stack.length) : Judges text tokens .incomplete
  | complete (leaves : LeavesOpen tokens []) (ended : ¬EndsQuoted text) :
      Judges text tokens .complete

theorem counts_iff {region : Region} {c paren : Char} (either : paren = '(' ∨ paren = ')') :
    (region.holding c = .code && c = paren) = true ↔ region = .code ∧ c = paren := by
  simp only [Bool.and_eq_true, decide_eq_true_eq]
  refine and_congr_left fun same => ?_
  subst same
  rcases either with rfl | rfl <;> cases region <;> simp [Region.holding, Region.after]

/-- The invariant of the console's scan: it has counted the parentheses that the tokens found so far
leave open. -/
theorem judges_of_scan {text : List Char} (front back : List Char) (pass : Pass) (stack : List Span)
    (whole : text = front ++ back) (region : pass.region = front.foldl Region.after .code)
    (place : pass.place = byteLength front) (leaves : LeavesOpen pass.found.reverse stack) :
    Judges text (back.foldl Pass.step pass).tokens
      (scan pass.region stack.length front.length back) := by
  induction back generalizing front pass stack with
  | nil =>
    have all := Pass.leavesOpen_flush leaves
    rw [List.append_nil] at whole
    rw [← whole] at region
    rw [scan]
    split
    case isTrue wanting =>
      refine .incomplete all ?_
      simpa [EndsQuoted, ← region] using wanting
    case isFalse done =>
      have ended : ¬EndsQuoted text ∧ stack = [] := by simpa [EndsQuoted, ← region] using done
      obtain ⟨ended, rfl⟩ := ended
      exact .complete all ended
  | cons c rest ih =>
    have onward {stack : List Span} (leaves : LeavesOpen (pass.step c).found.reverse stack) :
        Judges text ((c :: rest).foldl Pass.step pass).tokens
          (scan (pass.region.after c) stack.length (front.length + 1) rest) := by
      have further := ih (front ++ [c]) (pass.step c) stack (by simp [whole])
        (by simp [Pass.step_region, region]) (by simp [Pass.step, place, byteLength_append]) leaves
      rwa [Pass.step_region, List.length_append, List.length_singleton] at further
    rw [scan]
    split_ifs with opening closing bottom
    · obtain ⟨code, rfl⟩ := (counts_iff (.inl rfl)).mp opening
      have further := onward (Pass.leavesOpen_step_open leaves code)
      rw [code] at further
      exact further
    · obtain ⟨code, rfl⟩ := (counts_iff (.inr rfl)).mp closing
      obtain rfl := List.length_eq_zero_iff.mp bottom
      obtain ⟨after, found⟩ := Pass.found_prefix_tokens rest (pass.step ')')
      rw [Pass.step_close code, List.reverse_cons, List.append_assoc] at found
      have position := charactersBefore_byteLength front (')' :: rest)
      rw [← whole, ← place] at position
      rw [← position]
      exact .unmatched found.symm (Pass.leavesOpen_flush leaves)
    · obtain ⟨code, rfl⟩ := (counts_iff (.inr rfl)).mp closing
      cases stack with
      | nil => exact absurd rfl bottom
      | cons innermost around =>
        have further := onward (Pass.leavesOpen_step_close leaves code)
        rw [code] at further
        exact further
    · refine onward (Pass.leavesOpen_step_other leaves fun code => ⟨fun same => ?_, fun same => ?_⟩)
      · exact opening ((counts_iff (.inl rfl)).mpr ⟨code, same⟩)
      · exact closing ((counts_iff (.inr rfl)).mpr ⟨code, same⟩)

theorem ofString_judges (source : String) :
    Judges source.toList (Token.ofString source) (ofString source) := by
  rw [Token.ofString, Pass.scan_eq_foldl_step]
  exact judges_of_scan [] source.toList Pass.start [] rfl rfl rfl (.none .nil)

variable {text : List Char} {tokens : List Token} {balance : Balance} {span : Span}

/-- Behind the parenthesis that the console complains about the depth is negative, and nowhere
before. -/
theorem depthAt_of_unmatched {before after : List Token}
    (found : tokens = before ++ ⟨.closeParen, span⟩ :: after) (shut : LeavesOpen before []) :
    depthAt tokens (before.length + 1) = -1 ∧
      ∀ count ≤ before.length, 0 ≤ depthAt tokens count := by
  subst found
  have here : (before ++ ⟨.closeParen, span⟩ :: after)[before.length]? =
      some ⟨.closeParen, span⟩ := by
    simp
  constructor
  · rw [depthAt_succ here, depthAt_append, depthAt_length, shut.depth_eq]
    simp [depthAt]
  · intro count early
    have within := shut.nonneg count
    rw [depthAt_append, Nat.sub_eq_zero_of_le early]
    simpa [depthAt] using within

theorem not_nonneg_of_unmatched {before after : List Token}
    (found : tokens = before ++ ⟨.closeParen, span⟩ :: after) (shut : LeavesOpen before []) :
    ¬∀ count, 0 ≤ depthAt tokens count := by
  intro nonneg
  have below := (depthAt_of_unmatched found shut).1
  have within := nonneg (before.length + 1)
  omega

private theorem Judges.of_unopened (judged : Judges text tokens balance) {place : Nat}
    (leaves : Reader.LeavesAt tokens place) (present : tokens[place]? = some ⟨.closeParen, span⟩)
    (negative : depthAt tokens (place + 1) < 0) :
    balance = .unmatched (charactersBefore span.start text) := by
  cases judged with
  | @unmatched before after other found shut =>
    obtain ⟨below, earlier⟩ := depthAt_of_unmatched found shut
    have here : place = before.length := by
      rcases Nat.lt_trichotomy place before.length with early | same | late
      · have inside := earlier (place + 1) early
        omega
      · exact same
      · have inside := leaves.2 (before.length + 1) late
        omega
    subst here found
    rw [List.getElem?_append_right (Nat.le_refl _), Nat.sub_self] at present
    cases present
    rfl
  | incomplete leavesOpen wanting =>
    have within := leavesOpen.nonneg (place + 1)
    omega
  | complete leavesOpen ended =>
    have within := leavesOpen.nonneg (place + 1)
    omega

private theorem Judges.of_unclosed (judged : Judges text tokens balance)
    (innermost : InnermostOpen tokens span)
    (nonneg : ∀ count, 0 ≤ depthAt tokens count) : balance = .incomplete := by
  cases judged with
  | unmatched found shut => exact absurd nonneg (not_nonneg_of_unmatched found shut)
  | incomplete => rfl
  | complete leavesOpen ended =>
    obtain ⟨place, still, _⟩ := innermost
    cases leavesOpen with
    | none balanced => exact absurd still balanced.not_stillOpen

private theorem Judges.of_closed (judged : Judges text tokens balance)
    (nonneg : ∀ count, 0 ≤ depthAt tokens count) (closed : depth tokens = 0) :
    balance = if EndsQuoted text then .incomplete else .complete := by
  cases judged with
  | unmatched found shut => exact absurd nonneg (not_nonneg_of_unmatched found shut)
  | incomplete leavesOpen wanting =>
    have level := leavesOpen.depth_eq
    rw [if_pos (wanting.resolve_right (by omega))]
  | complete leavesOpen ended => rw [if_neg ended]

end Balance

namespace Reader

open EagerLisp.Token

/-- The console agrees with reading on every text: it complains about the parenthesis that reading
complains about, asks for more where a list is left open, and is content where reading succeeds
unless the text ends inside a quoted stretch. So reading a text that it is content with can only
fail because lists are nested too deep. -/
theorem readProgram_agrees_with_balance (source : String) :
    (∀ span, readProgram source = .error (.unopened span) →
      Balance.ofString source = .unmatched (charactersBefore span.start source.toList)) ∧
    (∀ span, readProgram source = .error (.unclosed span) →
      Balance.ofString source = .incomplete) ∧
    (∀ nodes, readProgram source = .ok nodes → Balance.ofString source =
      if EndsQuoted source.toList then .incomplete else .complete) ∧
    (Balance.ofString source = .complete → (∃ nodes, readProgram source = .ok nodes) ∨
      ∃ span, readProgram source = .error (.tooDeep nestingLimit span)) := by
  have judged := Balance.ofString_judges source
  have verdict := readProgram_verdict source
  generalize readProgram source = outcome at verdict
  cases verdict with
  | complete nodes within closed =>
    refine ⟨by simp, by simp, fun _ _ => ?_, fun _ => .inl ⟨nodes, rfl⟩⟩
    exact judged.of_closed (fun count => (within count).1) closed
  | unopened leaves found negative =>
    have same := judged.of_unopened leaves found negative
    refine ⟨fun span named => ?_, by simp, by simp, fun calm => ?_⟩
    · cases named
      exact same
    · rw [same] at calm
      cases calm
  | @tooDeep place later span => exact ⟨by simp, by simp, by simp, fun _ => .inr ⟨span, rfl⟩⟩
  | unclosed innermost nonneg stays =>
    have same := judged.of_unclosed innermost nonneg
    refine ⟨by simp, fun _ _ => same, by simp, fun calm => ?_⟩
    rw [same] at calm
    cases calm

/-- Parentheses in quotes and comments do not count, and a character of two bytes counts once; a
text that ends inside quotes can be read although the console asks for more. -/
theorem readProgram_agrees_with_balance_examples :
    readProgram "é\"(\" ;(\n)" = .error (.unopened ⟨9, 10⟩) ∧
      Balance.ofString "é\"(\" ;(\n)" = .unmatched 8 ∧
      readProgram "\"" = .ok [.leaf (.ofText "\"") ⟨0, 1⟩] ∧
      Balance.ofString "\"" = .incomplete := by
  have first : readProgram "é\"(\" ;(\n)" = .error (.unopened ⟨9, 10⟩) := by
    have tokens : Token.ofString "é\"(\" ;(\n)" =
        [⟨.atom "é\"(\"", ⟨0, 5⟩⟩, ⟨.closeParen, ⟨9, 10⟩⟩] := by
      rw [Token.ofString, Pass.scan_eq_foldl_step]
      decide +kernel
    rw [readProgram, tokens, readAll_of_ok rfl, readAll_of_error rfl]
  have second : readProgram "\"" = .ok [.leaf (.ofText "\"") ⟨0, 1⟩] := by
    have tokens : Token.ofString "\"" = [⟨.atom "\"", ⟨0, 1⟩⟩] := by
      rw [Token.ofString, Pass.scan_eq_foldl_step]
      decide +kernel
    rw [readProgram, tokens, readAll_of_ok rfl, readAll]
    rfl
  exact ⟨first, (readProgram_agrees_with_balance _).1 _ first, second,
    (readProgram_agrees_with_balance _).2.2.1 _ second⟩

end Reader
end EagerLisp
