import EagerLisp.Proofs.Console.InPlace

namespace EagerLisp.Highlight

open EagerLisp.Token

/-- The region that a colour is for. -/
def regionOf : Option Colour → Region
  | some .grey => .comment
  | some .green => .quoted
  | _ => .code

theorem holding_of_mem {line : String} {lexeme : Lexeme} (paren : ∀ text, lexeme ≠ .atom text)
    {front back : List Char} {c : Char} (whole : line.toList = front ++ c :: back)
    (member : (⟨lexeme, byteBehind front⟩ : Token) ∈ Token.ofString line) :
    (Region.behind front).holding c = .code ∧ Lexeme.ofParen? c = some lexeme := by
  obtain ⟨code, named⟩ := (byteBehind_mem_ofString_iff paren whole).mp member
  refine ⟨?_, named⟩
  unfold Lexeme.ofParen? at named
  split at named <;> simp_all [Region.holding, Region.after]

/-- Parentheses become tokens unless they stand in a comment or in quotes. -/
theorem behind_eq_code_iff {front : List Char} {c : Char} {lexeme : Lexeme}
    (named : Lexeme.ofParen? c = some lexeme) :
    Region.behind front = .code ↔ ¬InComment front c ∧ ¬InQuotes front c := by
  rw [← Region.holding_eq_comment, ← Region.holding_eq_quoted]
  unfold Lexeme.ofParen? at named
  cases Region.behind front with
  | quoted => simp [Region.holding]
  | comment => simp [Region.holding]
  | code => split at named <;> simp_all [Region.holding, Region.after]

namespace Coloured

variable {cursor : Nat} {line : String} {front back : List Char} {c : Char}
  {colour? : Option Colour}

theorem region {tokens : List Token} (coloured : Coloured cursor tokens front c colour?) :
    (Region.behind front).holding c = regionOf colour? := by
  cases coloured with
  | comment inside => exact inside
  | quoted inside => exact inside
  | plain code noParen => exact code
  | unmatched code alone => rw [code]; rfl
  | closing code pair near => rw [code]; rfl
  | closingAway code pair away => rw [code]; rfl
  | opening code pair near => rw [code]; rfl
  | openingAway code away => rw [code]; rfl

section Line

variable (coloured : Coloured cursor (Token.ofString line) front c colour?)

include coloured

theorem grey_iff : colour? = some .grey ↔ InComment front c := by
  rw [← Region.holding_eq_comment, coloured.region]
  cases colour? with
  | none => simp [regionOf]
  | some colour => cases colour <;> simp [regionOf]

theorem green_iff : colour? = some .green ↔ InQuotes front c := by
  rw [← Region.holding_eq_quoted, coloured.region]
  cases colour? with
  | none => simp [regionOf]
  | some colour => cases colour <;> simp [regionOf]

variable (whole : line.toList = front ++ c :: back)

include whole

theorem red_iff : colour? = some .red ↔
    (⟨.closeParen, byteBehind front⟩ : Token) ∈ Token.ofString line ∧
      ∀ opening, ¬Matches (Token.ofString line) opening (byteBehind front) := by
  constructor
  · rintro rfl
    cases coloured with
    | unmatched code alone =>
      exact ⟨(byteBehind_mem_ofString_iff (by simp) whole).mpr ⟨code, rfl⟩, alone⟩
  · rintro ⟨member, alone⟩
    obtain ⟨inCode, named⟩ := holding_of_mem (by simp) whole member
    cases coloured with
    | comment inside => simp [inside] at inCode
    | quoted inside => simp [inside] at inCode
    | plain code noParen => simp [noParen] at named
    | unmatched code alone => rfl
    | closing code pair near => exact absurd pair (alone _)
    | closingAway code pair away => exact absurd pair (alone _)
    | opening code pair near => cases named
    | openingAway code away => cases named

theorem blue_iff : colour? = some .blue ↔
    ∃ opening, Matches (Token.ofString line) opening (byteBehind front) ∧
      Near cursor opening (byteBehind front) := by
  constructor
  · rintro rfl
    cases coloured with
    | closing code pair near => exact ⟨_, pair, near⟩
  · rintro ⟨opening, matched, close⟩
    obtain ⟨inCode, named⟩ := holding_of_mem (by simp) whole matched.closing_mem
    cases coloured with
    | comment inside => simp [inside] at inCode
    | quoted inside => simp [inside] at inCode
    | plain code noParen => simp [noParen] at named
    | unmatched code alone => exact absurd matched (alone _)
    | closing code pair near => rfl
    | closingAway code pair away =>
      obtain rfl := pair.opening_unique (ofString_increasing line) matched
      exact absurd close away
    | opening code pair near => cases named
    | openingAway code away => cases named

theorem brightBlue_iff : colour? = some .brightBlue ↔
    ∃ closing, Matches (Token.ofString line) (byteBehind front) closing ∧
      Near cursor (byteBehind front) closing := by
  constructor
  · rintro rfl
    cases coloured with
    | opening code pair near => exact ⟨_, pair, near⟩
  · rintro ⟨closing, matched, close⟩
    obtain ⟨inCode, named⟩ := holding_of_mem (by simp) whole matched.opening_mem
    cases coloured with
    | comment inside => simp [inside] at inCode
    | quoted inside => simp [inside] at inCode
    | plain code noParen => simp [noParen] at named
    | unmatched code alone => cases named
    | closing code pair near => cases named
    | closingAway code pair away => cases named
    | opening code pair near => rfl
    | openingAway code away => exact absurd close (away closing matched)

end Line

end Coloured

private theorem Near.unique {tokens : List Token} (increasing : Increasing tokens) {cursor : Nat}
    {opening closing other another : Span} (pair : Matches tokens opening closing)
    (near : Near cursor opening closing) (second : Matches tokens other another)
    (nearby : Near cursor other another) : opening = other ∧ closing = another := by
  rcases near with left | right
  · rcases nearby with first | last
    · have same := increasing.eq_of_start pair.opening_mem second.opening_mem (by simp only; omega)
      cases same
      exact ⟨rfl, pair.closing_unique increasing second⟩
    · have same := increasing.eq_of_start pair.opening_mem second.closing_mem (by simp only; omega)
      cases same
  · rcases nearby with first | last
    · have same := increasing.eq_of_start pair.closing_mem second.opening_mem (by simp only; omega)
      cases same
    · have same := increasing.eq_of_start pair.closing_mem second.closing_mem (by simp only; omega)
      cases same
      exact ⟨pair.opening_unique increasing second, rfl⟩

/-- The first red character is a closing parenthesis that stands behind so many others. -/
def FirstRed (painted : List Painted) (position : Nat) : Prop :=
  painted[position]? = some ⟨')', some .red⟩ ∧
    ∀ index < position, ∀ other, painted[index]? = some other → other.colour? ≠ some .red

private theorem FirstRed.unique {painted : List Painted} {position other : Nat}
    (first : FirstRed painted position) (second : FirstRed painted other) : position = other := by
  rcases Nat.lt_trichotomy position other with before | same | behind
  · exact absurd rfl (second.2 position before _ first.1)
  · exact same
  · exact absurd rfl (first.2 other behind _ second.1)

variable {line : String} {cursor position : Nat}

theorem alone_of_red {index : Nat} {painted : Painted}
    (present : (ofString line cursor)[index]? = some painted)
    (red : painted.colour? = some .red) :
    ∃ front back, line.toList = front ++ back ∧ front.length = index ∧
      (⟨.closeParen, byteBehind front⟩ : Token) ∈ Token.ofString line ∧
      ∀ opening, ¬Matches (Token.ofString line) opening (byteBehind front) := by
  have character : line.toList[index]? = some painted.character := by
    rw [← ofString_characters line cursor, List.getElem?_map, present]
    rfl
  obtain ⟨bound, here⟩ := List.getElem?_eq_some_iff.mp character
  have length : (line.toList.take index).length = index :=
    List.length_take_of_le (Nat.le_of_lt bound)
  have whole : line.toList =
      line.toList.take index ++ painted.character :: line.toList.drop (index + 1) := by
    rw [← here, List.getElem_cons_drop, List.take_append_drop]
  obtain ⟨colour?, found, coloured⟩ := ofString_coloured cursor whole
  rw [length, present] at found
  have same : painted.colour? = colour? := congrArg Painted.colour? (Option.some.inj found)
  exact ⟨_, _, whole, length, (coloured.red_iff whole).mp (same.symm.trans red)⟩

theorem not_red_of_leavesOpen {stack : List Span} (left : LeavesOpen (Token.ofString line) stack)
    {painted : Painted} (member : painted ∈ ofString line cursor) :
    painted.colour? ≠ some .red := by
  intro red
  obtain ⟨index, present⟩ := List.mem_iff_getElem?.mp member
  obtain ⟨front, back, _, _, closing, alone⟩ := alone_of_red present red
  obtain ⟨opening, pair⟩ := Matches.of_mem left.nonneg closing []
  rw [List.append_nil] at pair
  exact alone opening pair

theorem firstRed_of_unmatched (unmatched : Balance.ofString line = .unmatched position) :
    FirstRed (ofString line cursor) position := by
  have increasing := ofString_increasing line
  have judged := Balance.ofString_judges line
  rw [unmatched] at judged
  cases judged with
  | @unmatched before after span found shut =>
    have member : (⟨.closeParen, span⟩ : Token) ∈ Token.ofString line := by simp [found]
    obtain ⟨front, c, back, whole, code, named, rfl⟩ := (mem_ofString_iff (by simp)).mp member
    have alone (opening : Span) :
        ¬Matches (Token.ofString line) opening (byteBehind front) := by
      rintro ⟨ahead, behind, split, awaits⟩
      obtain ⟨rfl, _, _⟩ := increasing.split_unique found split rfl
      cases shut with
      | none balanced => exact balanced.not_awaits opening awaits
    have position : charactersBefore (byteBehind front).start line.toList = front.length := by
      rw [whole]
      exact charactersBefore_byteLength front (c :: back)
    obtain ⟨colour?, present, coloured⟩ := ofString_coloured cursor whole
    obtain rfl := (coloured.red_iff whole).mpr ⟨member, alone⟩
    cases coloured with
    | unmatched _ _ =>
      rw [position]
      refine ⟨present, fun index early other there red => ?_⟩
      -- What is red further ahead would stand among the tokens before, where all closing
      -- parentheses have partners.
      obtain ⟨start, rest, split, rfl, closing, single⟩ := alone_of_red there red
      have ahead : byteLength start < byteLength front :=
        byteLength_lt_of_length_lt split whole early
      rw [found] at closing increasing single
      obtain ⟨_, later, _⟩ := List.pairwise_append.mp increasing
      rcases List.mem_append.mp closing with inside | beyond
      · obtain ⟨opening, pair⟩ := Matches.of_mem shut.nonneg inside (_ :: after)
        exact single opening pair
      · rcases List.mem_cons.mp beyond with same | behind
        · have starts := congrArg (fun token : Token => token.span.start) same
          simp only [byteBehind] at starts
          omega
        · have further := List.rel_of_pairwise_cons later behind
          simp only [byteBehind] at further
          omega

/-- The console complains about the first red parenthesis, and about nothing else. -/
theorem unmatched_iff_firstRed :
    Balance.ofString line = .unmatched position ↔ FirstRed (ofString line cursor) position := by
  refine ⟨firstRed_of_unmatched, fun first => ?_⟩
  have member := List.mem_of_getElem? first.1
  have judged := Balance.ofString_judges line
  generalize same : Balance.ofString line = balance at judged
  cases judged with
  | unmatched found shut =>
    have other : FirstRed (ofString line cursor) _ := firstRed_of_unmatched same
    rw [other.unique first]
  | incomplete left wanting => exact absurd rfl (not_red_of_leavesOpen left member)
  | complete left ended => exact absurd rfl (not_red_of_leavesOpen left member)

private theorem exists_firstRed {painted : Painted} (member : painted ∈ ofString line cursor)
    (red : painted.colour? = some .red) : ∃ position, FirstRed (ofString line cursor) position := by
  have judged := Balance.ofString_judges line
  generalize same : Balance.ofString line = balance at judged
  cases judged with
  | unmatched found shut => exact ⟨_, firstRed_of_unmatched same⟩
  | incomplete left wanting => exact absurd red (not_red_of_leavesOpen left member)
  | complete left ended => exact absurd red (not_red_of_leavesOpen left member)

/-- What the colour of the character `c` behind `front` says. -/
structure Tells (line : String) (cursor : Nat) (front : List Char) (c : Char)
    (colour? : Option Colour) : Prop where
  /-- Comments are grey, from the semicolon through the newline. -/
  grey : colour? = some .grey ↔ InComment front c
  /-- Quoted stretches are green, with the quotes around them. -/
  green : colour? = some .green ↔ InQuotes front c
  /-- A closing parenthesis is red if it has no partner. -/
  red : colour? = some .red ↔ (⟨.closeParen, byteBehind front⟩ : Token) ∈ Token.ofString line ∧
    ∀ opening, ¬Matches (Token.ofString line) opening (byteBehind front)
  /-- A closing parenthesis is blue if the cursor is near it or its partner. -/
  blue : colour? = some .blue ↔ ∃ opening,
    Matches (Token.ofString line) opening (byteBehind front) ∧
      Near cursor opening (byteBehind front)
  /-- An opening parenthesis is bright blue if the cursor is near it or its partner. -/
  brightBlue : colour? = some .brightBlue ↔ ∃ closing,
    Matches (Token.ofString line) (byteBehind front) closing ∧
      Near cursor (byteBehind front) closing

/-- What a highlighted line shows of its structure. -/
structure ShowsStructure (line : String) (cursor : Nat) : Prop where
  /-- Every character is kept, in order, and written as its colour has it: -/
  characters : (ofString line cursor).map Painted.character = line.toList
  joined : text line cursor = String.join ((ofString line cursor).map Painted.text)
  /-- one without a colour stands for itself, -/
  bare : ∀ c, Painted.text ⟨c, none⟩ = c.toString
  /-- and one with a colour stands between the escape of that colour and the reset. -/
  wrapped : ∀ c, Painted.text ⟨c, some .grey⟩ = "\x1b[90m" ++ c.toString ++ "\x1b[0m" ∧
    Painted.text ⟨c, some .green⟩ = "\x1b[32m" ++ c.toString ++ "\x1b[0m" ∧
    Painted.text ⟨c, some .red⟩ = "\x1b[31m" ++ c.toString ++ "\x1b[0m" ∧
    Painted.text ⟨c, some .blue⟩ = "\x1b[34m" ++ c.toString ++ "\x1b[0m" ∧
    Painted.text ⟨c, some .brightBlue⟩ = "\x1b[1;34m" ++ c.toString ++ "\x1b[0m"
  /-- Editing in place never misses a parenthesis and writes the same text. -/
  edited : Draft.text? line cursor = some (text line cursor)
  /-- At any time while it writes, its notes point at bare parentheses. -/
  notes : ∀ front back, line.toList = front ++ back → ∃ draft, Draft.run cursor front = some draft ∧
    ∀ note ∈ draft.notes,
      note.PointsAtBare (ofString (String.ofList front) cursor) draft.written
  /-- The colours say what stands where. -/
  colours : ∀ front c back, line.toList = front ++ c :: back → ∃ colour?,
    (ofString line cursor)[front.length]? = some ⟨c, colour?⟩ ∧ Tells line cursor front c colour?
  /-- The parentheses among the tokens are those outside comments and quotes. -/
  parens : ∀ lexeme span, (∀ text, lexeme ≠ .atom text) →
    ((⟨lexeme, span⟩ : Token) ∈ Token.ofString line ↔
      ∃ front c back, line.toList = front ++ c :: back ∧ ¬InComment front c ∧ ¬InQuotes front c ∧
        Lexeme.ofParen? c = some lexeme ∧ span = byteBehind front)
  /-- The cursor is near one pair at most. -/
  onePair : ∀ opening closing other another, Matches (Token.ofString line) opening closing →
    Near cursor opening closing → Matches (Token.ofString line) other another →
    Near cursor other another → opening = other ∧ closing = another
  /-- There is something red if and only if the console complains about the line, -/
  invalid : (∃ painted ∈ ofString line cursor, painted.colour? = some .red) ↔
    ∃ position, Balance.ofString line = .unmatched position
  /-- and it complains about the first red parenthesis. -/
  complaint : ∀ position,
    Balance.ofString line = .unmatched position ↔ FirstRed (ofString line cursor) position

private theorem mem_ofString_iff_outside (line : String) (lexeme : Lexeme) (span : Span)
    (paren : ∀ text, lexeme ≠ .atom text) : (⟨lexeme, span⟩ : Token) ∈ Token.ofString line ↔
      ∃ front c back, line.toList = front ++ c :: back ∧ ¬InComment front c ∧ ¬InQuotes front c ∧
        Lexeme.ofParen? c = some lexeme ∧ span = byteBehind front := by
  rw [mem_ofString_iff paren]
  constructor
  · rintro ⟨front, c, back, whole, code, named, same⟩
    obtain ⟨noComment, noQuotes⟩ := (behind_eq_code_iff named).mp code
    exact ⟨front, c, back, whole, noComment, noQuotes, named, same⟩
  · rintro ⟨front, c, back, whole, noComment, noQuotes, named, same⟩
    exact ⟨front, c, back, whole, (behind_eq_code_iff named).mpr ⟨noComment, noQuotes⟩, named, same⟩

/-- Highlighting shows the structure of every line, wherever the cursor stands. -/
theorem shows_structure (line : String) (cursor : Nat) : ShowsStructure line cursor where
  characters := ofString_characters line cursor
  joined := rfl
  bare _ := rfl
  wrapped _ := ⟨rfl, rfl, rfl, rfl, rfl⟩
  edited := Draft.text?_eq_text line cursor
  notes front _ _ := by
    obtain ⟨draft, written, _, points⟩ := Draft.pointsAtBare_of_run cursor front
    exact ⟨draft, written, points⟩
  colours front c back whole := by
    obtain ⟨colour?, present, coloured⟩ := ofString_coloured cursor whole
    exact ⟨colour?, present, coloured.grey_iff, coloured.green_iff, coloured.red_iff whole,
      coloured.blue_iff whole, coloured.brightBlue_iff whole⟩
  parens := mem_ofString_iff_outside line
  onePair _ _ _ _ pair near second nearby :=
    Near.unique (ofString_increasing line) pair near second nearby
  invalid := by
    constructor
    · rintro ⟨painted, member, red⟩
      obtain ⟨position, first⟩ := exists_firstRed member red
      exact ⟨position, unmatched_iff_firstRed.mpr first⟩
    · rintro ⟨position, unmatched⟩
      exact ⟨_, List.mem_of_getElem? (firstRed_of_unmatched unmatched).1, rfl⟩
  complaint _ := unmatched_iff_firstRed

end EagerLisp.Highlight
