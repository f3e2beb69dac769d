import EagerLisp.Proofs.Console.Painting

/-! Colouring a line by editing one text. The text is written from left to right with its escape
sequences. For an opening parenthesis the byte is noted at which it was written, and if the cursor
turns out to be near the pair, the parenthesis is replaced there. Notes that are still waiting lie
in front of every replacement, so they keep pointing at their parentheses, and what is written in
the end is the text of the painted line. -/
namespace EagerLisp.Highlight

open EagerLisp.Token

/-- The characters that painted characters are written with. -/
def written (painted : List Painted) : List Char :=
  painted.flatMap fun painted => painted.text.toList

@[simp] theorem written_nil : written [] = [] := rfl

@[simp] theorem written_append (first second : List Painted) :
    written (first ++ second) = written first ++ written second :=
  List.flatMap_append

@[simp] theorem written_cons (first : Painted) (rest : List Painted) :
    written (first :: rest) = first.text.toList ++ written rest :=
  List.flatMap_cons

theorem Painted.text_bare (c : Char) : (Painted.mk c none).text.toList = [c] := by
  simp [Painted.text]

private theorem text_toList (line : String) (cursor : Nat) :
    (text line cursor).toList = written (ofString line cursor) := by
  rw [text, String.toList_join, List.flatMap_map]
  rfl

private theorem after_of_comment {region : Region} {c : Char}
    (inside : region.holding c = .comment) :
    region ≠ .quoted ∧ region.after c = if c = '\n' then .code else .comment := by
  cases region with
  | quoted => cases inside
  | comment => exact ⟨by simp, rfl⟩
  | code =>
    have noNewline : c ≠ '\n' := by
      rintro rfl
      cases inside
    rw [if_neg noNewline]
    exact ⟨by simp, inside⟩

private theorem after_of_quoted {region : Region} {c : Char} (inside : region.holding c = .quoted) :
    region ≠ .comment ∧
      region.after c = if region = .quoted ∧ c = '"' then .code else .quoted := by
  cases region with
  | comment => cases inside
  | quoted => exact ⟨by simp, by simp [Region.after]⟩
  | code => exact ⟨by simp, by simpa [Region.holding] using inside⟩

/-- Puts a text in the place of the character that begins at a byte and is no longer than that. -/
def replaceByte (text : List Char) : Nat → List Char → Option (List Char)
  | _, [] => none
  | 0, c :: rest => if c.utf8Size = 1 then some (text ++ rest) else none
  | place + 1, c :: rest =>
    if c.utf8Size ≤ place + 1 then
      (replaceByte text (place + 1 - c.utf8Size) rest).map (c :: ·)
    else none

theorem replaceByte_append (text front back : List Char) {c : Char} (narrow : c.utf8Size = 1) :
    replaceByte text (byteLength front) (front ++ c :: back) = some (front ++ text ++ back) := by
  induction front with
  | nil => simp [replaceByte, narrow]
  | cons first front ih =>
    obtain ⟨size, wide⟩ := Nat.exists_eq_add_of_lt first.utf8Size_pos
    have place : byteLength (first :: front) = size + byteLength front + 1 := by
      rw [byteLength_cons]
      omega
    have rest : size + byteLength front + 1 - first.utf8Size = byteLength front := by omega
    rw [place, List.cons_append, replaceByte, if_pos (by omega), rest, ih]
    simp

/-- An opening parenthesis that has been written: the byte at which it stands in the line, and the
byte at which it stands in the text. -/
structure Note where
  offset : Nat
  place : Nat

/-- The note on an opening parenthesis among painted characters. -/
def Note.ofOpening (painted : List Painted) (opening : Opening) : Note :=
  ⟨opening.offset, byteLength (written (painted.take opening.index))⟩

theorem Note.ofOpening_append {painted : List Painted} {opening : Opening}
    (within : opening.index ≤ painted.length) (more : List Painted) :
    ofOpening (painted ++ more) opening = ofOpening painted opening := by
  rw [ofOpening, List.take_append_of_le_length within, ofOpening]

private theorem Note.ofOpening_set {painted : List Painted} {opening : Opening} {index : Nat}
    (earlier : opening.index ≤ index) (other : Painted) :
    ofOpening (painted.set index other) opening = ofOpening painted opening := by
  rw [ofOpening, List.take_set_of_le earlier, ofOpening]

/-- The text written so far. -/
@[ext]
structure Draft where
  inQuotes : Bool
  inComment : Bool
  offset : Nat
  notes : List Note
  written : List Char

namespace Draft

def start : Draft := ⟨false, false, 0, [], []⟩

/-- Moves on behind a character and writes it. -/
def write (draft : Draft) (c : Char) (colour? : Option Colour) : Draft :=
  { draft with
    offset := draft.offset + c.utf8Size
    written := draft.written ++ (Painted.mk c colour?).text.toList }

/-- The byte to the left of the cursor. -/
def leftOf? (cursor : Nat) : Option Nat :=
  if cursor = 0 then none else some (cursor - 1)

/-- Replaces the parenthesis that a note points at by a coloured one. -/
def replace (draft : Draft) (note : Note) : Option Draft :=
  (replaceByte (Painted.mk '(' (some .brightBlue)).text.toList note.place draft.written).map
    fun written => { draft with written }

/-- Writes a character that stands in code, and replaces the parenthesis that it closes if the
cursor is near. -/
def stepCode (cursor : Nat) (draft : Draft) (c : Char) : Option Draft :=
  match c, draft.notes with
  | '(', notes =>
    some { draft.write '(' none with notes := ⟨draft.offset, byteLength draft.written⟩ :: notes }
  | ')', note :: notes =>
    if leftOf? cursor = some note.offset || leftOf? cursor = some draft.offset then
      ({ draft with notes }.write ')' (some .blue)).replace note
    else some ({ draft with notes }.write ')' none)
  | ')', [] => some (draft.write ')' (some .red))
  | c, _ => some (draft.write c none)

/-- Writes the next character. -/
def step (cursor : Nat) (draft : Draft) (c : Char) : Option Draft :=
  if draft.inComment || !draft.inQuotes && c = ';' then
    some ({ draft with inComment := c ≠ '\n' }.write c (some .grey))
  else if draft.inQuotes || c = '"' then
    some ({ draft with inQuotes := if draft.inQuotes then c ≠ '"' else true }.write c (some .green))
  else draft.stepCode cursor c

/-- Writes a text, if every replacement finds a character to replace. -/
def run (cursor : Nat) (text : List Char) : Option Draft :=
  text.foldlM (step cursor) start

/-- What has been written when painting stands at `brush`. -/
def ofBrush (brush : Brush) : Draft where
  inQuotes := brush.region = .quoted
  inComment := brush.region = .comment
  offset := brush.offset
  notes := brush.openings.map (Note.ofOpening brush.painted)
  written := Highlight.written brush.painted

theorem leftOf?_eq_some_iff {cursor offset : Nat} :
    leftOf? cursor = some offset ↔ touches cursor offset = true := by
  simp only [leftOf?, touches, decide_eq_true_eq]
  split <;> simp <;> omega

variable {cursor : Nat} {front : List Char} {tokens : List Token} {brush : Brush} {c : Char}

theorem comment_iff : ((ofBrush brush).inComment || !(ofBrush brush).inQuotes && c = ';') = true ↔
    brush.region.holding c = .comment := by
  obtain ⟨region, _, _, _⟩ := brush
  cases region with
  | code =>
    by_cases comment : c = ';'
    · simp [ofBrush, Region.holding, Region.after, comment]
    · simp [ofBrush, Region.holding, Region.after, comment]
      split <;> simp
  | quoted => simp [ofBrush, Region.holding]
  | comment => simp [ofBrush, Region.holding]

theorem quoted_iff (noComment : brush.region.holding c ≠ .comment) :
    ((ofBrush brush).inQuotes || c = '"') = true ↔ brush.region.holding c = .quoted := by
  obtain ⟨region, _, _, _⟩ := brush
  cases region with
  | code =>
    by_cases quote : c = '"'
    · simp [ofBrush, Region.holding, Region.after, quote]
    · simp [ofBrush, Region.holding, Region.after, quote]
      split <;> simp
  | quoted => simp [ofBrush, Region.holding]
  | comment => exact absurd rfl noComment

theorem ofBrush_push (within : ∀ opening ∈ brush.openings, opening.index ≤ brush.painted.length)
    (c : Char) (colour? : Option Colour) :
    ofBrush (brush.push c colour?) =
      { (ofBrush brush).write c colour? with
        inQuotes := brush.region.after c = .quoted
        inComment := brush.region.after c = .comment } := by
  have notes : (ofBrush (brush.push c colour?)).notes = (ofBrush brush).notes :=
    List.map_congr_left fun opening member => Note.ofOpening_append (within opening member) _
  exact Draft.ext rfl rfl rfl notes (by simp [ofBrush, Brush.push, write])

theorem ofBrush_push_same (brush : Brush)
    (within : ∀ opening ∈ brush.openings, opening.index ≤ brush.painted.length)
    (same : brush.region.after c = brush.region) (colour? : Option Colour) :
    ofBrush (brush.push c colour?) = (ofBrush brush).write c colour? := by
  rw [ofBrush_push within, same]
  rfl

private theorem step_eq_stepCode (code : brush.region.holding c = .code) :
    (ofBrush brush).step cursor c = (ofBrush brush).stepCode cursor c := by
  have noComment : brush.region.holding c ≠ .comment := by simp [code]
  have noQuote : brush.region.holding c ≠ .quoted := by simp [code]
  unfold step
  rw [if_neg (mt comment_iff.mp noComment), if_neg (mt (quoted_iff noComment).mp noQuote)]

section Step

variable (follows : Follows cursor front tokens brush)

include follows

theorem within : ∀ opening ∈ brush.openings, opening.index ≤ brush.painted.length := by
  intro opening member
  rw [follows.length]
  exact Nat.le_of_lt (follows.index_lt member)

private theorem step_comment (inside : brush.region.holding c = .comment) :
    (ofBrush brush).step cursor c = some (ofBrush (brush.step cursor c)) := by
  unfold step
  rw [if_pos (comment_iff.mpr inside), Brush.step_comment inside, ofBrush_push (within follows)]
  obtain ⟨unquoted, after⟩ := after_of_comment inside
  refine congrArg some (Draft.ext ?_ ?_ rfl rfl rfl)
  · simp only [write, ofBrush, after]
    split <;> simp [unquoted]
  · simp only [write, ofBrush, after]
    split <;> simp_all

private theorem step_quoted (inside : brush.region.holding c = .quoted) :
    (ofBrush brush).step cursor c = some (ofBrush (brush.step cursor c)) := by
  have noComment : brush.region.holding c ≠ .comment := by simp [inside]
  unfold step
  rw [if_neg (mt comment_iff.mp noComment), if_pos ((quoted_iff noComment).mpr inside),
    Brush.step_quoted inside, ofBrush_push (within follows)]
  obtain ⟨uncommented, after⟩ := after_of_quoted inside
  refine congrArg some (Draft.ext ?_ ?_ rfl rfl rfl)
  · simp only [write, ofBrush, after]
    by_cases region : brush.region = .quoted
    · simp only [region]
      split <;> simp_all
    · simp [region]
  · simp only [write, ofBrush, after]
    split <;> simp_all

private theorem stepCode_open (code : brush.region = .code) :
    (ofBrush brush).stepCode cursor '(' = some (ofBrush (brush.step cursor '(')) := by
  have pushed := ofBrush_push_same (c := '(') brush (within follows) (by rw [code]; rfl) none
  rw [Brush.step_open code]
  simp only [stepCode, ← pushed]
  refine congrArg some (Draft.ext rfl rfl rfl (congrArg₂ List.cons ?_ ?_) rfl)
  · simp [Note.ofOpening, ofBrush, Brush.push]
  · exact (congrArg notes pushed).symm

private theorem stepCode_unmatched (code : brush.region = .code) (none : brush.openings = []) :
    (ofBrush brush).stepCode cursor ')' = some (ofBrush (brush.step cursor ')')) := by
  have notes : (ofBrush brush).notes = [] := by simp [ofBrush, none]
  rw [Brush.step_unmatched code none, ofBrush_push_same brush (within follows) (by rw [code]; rfl)]
  simp only [stepCode, notes]

private theorem stepCode_plain (code : brush.region.holding c = .code)
    (noParen : Lexeme.ofParen? c = none) :
    (ofBrush brush).stepCode cursor c = some (ofBrush (brush.step cursor c)) := by
  obtain ⟨inCode, after⟩ := after_of_holding code
  rw [Brush.step_plain code noParen,
    ofBrush_push_same brush (within follows) (after.trans inCode.symm)]
  unfold Lexeme.ofParen? at noParen
  unfold stepCode
  split <;> simp_all

private theorem stepCode_close (code : brush.region = .code) {opening : Opening}
    {around : List Opening} (open? : brush.openings = opening :: around) :
    (ofBrush brush).stepCode cursor ')' = some (ofBrush (brush.step cursor ')')) := by
  have inside := within follows
  have apart := follows.apart
  have member : opening ∈ brush.openings := by simp [open?]
  rw [open?] at inside apart
  obtain ⟨last, _⟩ := List.pairwise_cons.mp apart
  have notes : (ofBrush brush).notes =
      Note.ofOpening brush.painted opening :: around.map (Note.ofOpening brush.painted) := by
    simp [ofBrush, open?]
  have touching : (leftOf? cursor = some (Note.ofOpening brush.painted opening).offset ||
      leftOf? cursor = some (ofBrush brush).offset) =
      (touches cursor opening.offset || touches cursor brush.offset) := by
    simp [leftOf?_eq_some_iff, Note.ofOpening, ofBrush]
  rw [Brush.step_close code open?]
  simp only [stepCode, notes, touching]
  split
  · obtain ⟨earlier, later, same, length, _⟩ := follows.splits member
    have closed := ofBrush_push_same (c := ')')
      { brush with
        openings := around
        painted := brush.painted.set opening.index ⟨'(', some .brightBlue⟩ }
      (fun other there => by simpa using inside other (List.mem_cons_of_mem _ there))
      (by rw [code]; rfl) (some .blue)
    have replaced := replaceByte_append (Painted.mk '(' (some .brightBlue)).text.toList
      (Highlight.written earlier)
      (Highlight.written later ++ (Painted.mk ')' (some .blue)).text.toList) (c := '(') rfl
    have place : (Note.ofOpening brush.painted opening).place =
        byteLength (Highlight.written earlier) := by
      rw [Note.ofOpening, ← length, same, List.take_left]
    -- The other openings stand in front of this one, so replacing it leaves their notes alone.
    have unmoved : around.map (Note.ofOpening
        (brush.painted.set opening.index ⟨'(', some .brightBlue⟩)) =
        around.map (Note.ofOpening brush.painted) :=
      List.map_congr_left fun other there => Note.ofOpening_set (Nat.le_of_lt (last other there)) _
    rw [closed, replace, place]
    simp only [write, ofBrush, unmoved]
    rw [same, ← length]
    simp [Painted.text_bare, replaced]
  · rw [ofBrush_push_same { brush with openings := around }
      (fun other there => inside other (List.mem_cons_of_mem _ there)) (by rw [code]; rfl)]
    rfl

private theorem step_ofBrush (c : Char) :
    (ofBrush brush).step cursor c = some (ofBrush (brush.step cursor c)) := by
  cases inside : brush.region.holding c with
  | comment => exact step_comment follows inside
  | quoted => exact step_quoted follows inside
  | code =>
    rw [step_eq_stepCode inside]
    cases paren : Lexeme.ofParen? c with
    | none => exact stepCode_plain follows inside paren
    | some lexeme =>
      have code := (after_of_holding inside).1
      unfold Lexeme.ofParen? at paren
      split at paren
      · exact stepCode_open follows code
      · cases open? : brush.openings with
        | nil => exact stepCode_unmatched follows code open?
        | cons opening around => exact stepCode_close follows code open?
      · cases paren

end Step

/-- No replacement misses its character, and what is written is what painting comes to. -/
theorem run_eq_ofBrush (cursor : Nat) (text : List Char) :
    run cursor text = some (ofBrush (text.foldl (Brush.step cursor) Brush.start)) := by
  induction text using List.reverseRecOn with
  | nil => rfl
  | append_singleton front c ih =>
    have written : run cursor (front ++ [c]) = (run cursor front).bind (step cursor · c) := by
      simp [run]
    rw [written, ih, List.foldl_append]
    exact step_ofBrush (Follows.foldl_step cursor front) c

/-- The text that a line is written with in the end. -/
def text? (line : String) (cursor : Nat) : Option String :=
  (run cursor line.toList).map fun draft => String.ofList draft.written

/-- Editing in place comes to the text of the painted line. -/
theorem text?_eq_text (line : String) (cursor : Nat) :
    text? line cursor = some (text line cursor) := by
  rw [text?, run_eq_ofBrush, Option.map_some, ofBrush, ← ofString_eq_foldl_step, ← text_toList,
    String.ofList_toList]

/-- The outer parenthesis still waits; the inner pair is coloured. -/
example : text? "é(()" 4 = some "é(\x1b[1;34m(\x1b[0m\x1b[34m)\x1b[0m" := by decide +kernel

end Draft

/-- The note points at an opening parenthesis that stands bare in the text, and gives the byte that
the same parenthesis has in the line. -/
def Note.PointsAtBare (note : Note) (painted : List Painted) (text : List Char) : Prop :=
  ∃ earlier later, painted = earlier ++ ⟨'(', none⟩ :: later ∧
    text = written earlier ++ '(' :: written later ∧
    byteLength (written earlier) = note.place ∧
    byteLength (earlier.map Painted.character) = note.offset

/-- However far a line has been written, it is written as if it ended there, and all notes point at
bare parentheses. -/
theorem Draft.pointsAtBare_of_run (cursor : Nat) (front : List Char) :
    ∃ draft, run cursor front = some draft ∧
      draft.written = Highlight.written (ofString (String.ofList front) cursor) ∧
      ∀ note ∈ draft.notes,
        note.PointsAtBare (ofString (String.ofList front) cursor) draft.written := by
  have painted := ofString_eq_foldl_step (String.ofList front) cursor
  rw [String.toList_ofList] at painted
  refine ⟨_, run_eq_ofBrush cursor front, by rw [painted]; rfl, fun note member => ?_⟩
  obtain ⟨opening, waiting, rfl⟩ := List.mem_map.mp member
  obtain ⟨earlier, later, same, length, offset⟩ :=
    (Follows.foldl_step cursor front).splits waiting
  refine ⟨earlier, later, painted.trans same, ?_, ?_, offset⟩
  · simp [ofBrush, same, Painted.text_bare]
  · rw [Note.ofOpening, same, ← length, List.take_left]

end EagerLisp.Highlight
