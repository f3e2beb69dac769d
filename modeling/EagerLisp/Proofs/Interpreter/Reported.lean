import EagerLisp.Proofs.Interpreter.Located
import EagerLisp.Proofs.Report.Header

namespace EagerLisp

private theorem Reader.Blames.span_eq {span : Span} {error : SyntaxError}
    (blames : Reader.Blames span error) : error.span? = some span := by
  cases blames <;> rfl

namespace Interpreter

variable {σ : Type}

private theorem exists_span_of_runTokens {context : Context σ} {source : Nat} {last : Value}
    {store : Store σ} {tokens : List Token} {error : Error}
    (failed : (runTokens context source last store tokens).1 = .error error) :
    ∃ span, error.span? = some span := by
  fun_induction runTokens context source last store tokens with
  | case1 => cases failed
  | case2 last store token rest cause unread same =>
    cases failed
    obtain ⟨blamed, _, blames⟩ := Reader.read_blames same
    exact ⟨blamed.span, blames.span_eq⟩
  | case3 last store token rest node unread same cause after run =>
    cases failed
    exact ⟨cause.span, rfl⟩
  | case4 last store token rest node unread same value after run ih => exact ih failed

/-- The report on a failed evaluation names the line and the column of the character that the error
begins with exactly if all characters before it are single bytes and the error does not end too far
behind the last character. -/
theorem evaluate_report_locates_iff (host : Host σ) (interpreter : Interpreter σ)
    (name source : String) (error : Error)
    (failed : (interpreter.evaluate host source).1 = .error error) :
    ∃ span, error.span? = some span ∧
      ∀ (front back : List Char) (c : Char) (line column : Nat),
        source.toList = front ++ c :: back → Token.byteLength front = span.start →
          Report.StandsAt source.toList front.length line column →
            (Report.Locates name source error line column ↔
              (∀ other ∈ front, other.utf8Size = 1) ∧ span.stop ≤ source.length + 1) := by
  obtain ⟨span, placed⟩ := exists_span_of_runTokens failed
  refine ⟨span, placed, ?_⟩
  intro front back c line column split begins stands
  exact Report.locates_iff_of_standsAt placed split begins stands

/-- In a text of single bytes the report names the place: here the second line. -/
theorem evaluate_report_locates_on_second_line :
    let source := "(list 1\n  y)"
    let error : Error := .running ⟨.undefinedSymbol "y", ⟨10, 11⟩⟩
    ((new () 128).evaluate Host.none source).1 = .error error ∧
      Report.StandsAt source.toList 10 2 3 ∧ Report.Locates "t" source error 2 3 := by
  intro source error
  have tokens : Token.ofString source = [⟨.openParen, ⟨0, 1⟩⟩, ⟨.atom "list", ⟨1, 5⟩⟩,
      ⟨.atom "1", ⟨6, 7⟩⟩, ⟨.atom "y", ⟨10, 11⟩⟩, ⟨.closeParen, ⟨11, 12⟩⟩] := by
    rw [Token.ofString, Token.Pass.scan_eq_foldl_step]
    decide +kernel
  have failed : ((new () 128).evaluate Host.none source).1 = .error error := by
    rw [evaluate, tokens, runTokens]
    rfl
  have stands : Report.StandsAt source.toList 10 2 3 :=
    ⟨["(list 1\n".toList], "  ".toList, 'y', [')'], [], by decide +kernel, rfl, rfl, rfl⟩
  refine ⟨failed, stands, ?_⟩
  obtain ⟨span, placed, located⟩ :=
    evaluate_report_locates_iff Host.none (new () 128) "t" source error failed
  cases placed
  have front : source.toList = "(list 1\n  ".toList ++ 'y' :: [')'] := by decide +kernel
  have begins : Token.byteLength "(list 1\n  ".toList = 10 := by decide +kernel
  have narrow : ∀ other ∈ "(list 1\n  ".toList, other.utf8Size = 1 :=
    Token.byteLength_eq_length_iff.mp (begins.trans (by decide +kernel))
  exact (located _ _ _ 2 3 front begins stands).mpr ⟨narrow, by decide⟩

/-- Behind a character of two bytes the report names the place of the character after it. -/
theorem evaluate_report_not_locates_behind_two_bytes :
    let source := "(list \"é\" x)"
    let error : Error := .running ⟨.undefinedSymbol "x", ⟨11, 12⟩⟩
    ((new () 128).evaluate Host.none source).1 = .error error ∧
      (∃ front, source.toList = front ++ ['x', ')'] ∧ Token.byteLength front = 11 ∧
        Report.StandsAt source.toList front.length 1 11) ∧
      Report.Locates "t" source error 1 12 ∧ ¬Report.Locates "t" source error 1 11 := by
  intro source error
  have tokens : Token.ofString source = [⟨.openParen, ⟨0, 1⟩⟩, ⟨.atom "list", ⟨1, 5⟩⟩,
      ⟨.atom "\"é\"", ⟨6, 10⟩⟩, ⟨.atom "x", ⟨11, 12⟩⟩, ⟨.closeParen, ⟨12, 13⟩⟩] := by
    rw [Token.ofString, Token.Pass.scan_eq_foldl_step]
    decide +kernel
  have failed : ((new () 128).evaluate Host.none source).1 = .error error := by
    rw [evaluate, tokens, runTokens]
    rfl
  have whole : Report.pieces source.toList = [] ++ source.toList :: [] := by decide +kernel
  have begun : Report.lineAt? (Report.linesOf source) 11 = some ⟨0, 0, source.toList⟩ :=
    Report.lineAt?_of_pieces whole (by decide +kernel : 11 < source.toList.length)
  have front : source.toList = "(list \"é\" ".toList ++ ['x', ')'] := by decide +kernel
  refine ⟨failed, ⟨"(list \"é\" ".toList, front, by decide, ?_⟩, ?_, ?_⟩
  · refine ⟨[], "(list \"é\" ".toList, 'x', [')'], [], ?_, rfl, rfl, rfl⟩
    rw [whole, front]
  · exact Report.locates_iff.mpr ⟨_, _, begun, begun, rfl, rfl⟩
  · intro located
    obtain ⟨first, last, same, _, _, column⟩ := Report.locates_iff.mp located
    cases begun.symm.trans same
    exact absurd column (by decide)

end Interpreter
end EagerLisp
