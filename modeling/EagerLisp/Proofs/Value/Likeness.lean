import EagerLisp.Proofs.Value.Holds
import Mathlib.Data.List.Forall2

/-! Values that differ in nothing that matters. A likeness says which names may be mentioned, and
how far places, numbers of texts and the marks of closures may differ between two evaluations.
Expressions and values that are alike have the same text and the same kind, compare alike, and
builtins answer alike to them. -/
namespace EagerLisp

/-- What two evaluations have in common: the names that both may mention, and how their places,
the numbers of their texts, the marks of their closures and their counts of closures correspond. -/
structure Likeness where
  name : String → Prop
  span : Span → Span → Prop
  source : Nat → Nat → Prop
  mark : ClosureMark → ClosureMark → Prop
  count : Nat → Nat → Prop
  /-- The next closures correspond, and so do the counts behind them. -/
  made : ∀ {index twin}, count index twin →
    mark (.made index) (.made twin) ∧ count (index + 1) (twin + 1)
  /-- Marks are told apart alike. -/
  one : ∀ {first firstTwin second secondTwin}, mark first firstTwin → mark second secondTwin →
    (first = second ↔ firstTwin = secondTwin)
  /-- Texts are told apart alike, unless places do not matter. -/
  moved : ∀ {first firstTwin second secondTwin}, source first firstTwin →
    source second secondTwin → (first = second ↔ firstTwin = secondTwin) ∨
      ∀ place placeTwin, span place placeTwin

theorem ClosureMark.made_of_eq {index twin : Nat} (same : index = twin) :
    made index = made twin ∧ index + 1 = twin + 1 :=
  ⟨congrArg made same, congrArg (· + 1) same⟩

theorem Likeness.moved_of_eq {first firstTwin second secondTwin : Nat} (same : first = firstTwin)
    (others : second = secondTwin) : (first = second ↔ firstTwin = secondTwin) ∨
      ∀ place placeTwin : Span, place = placeTwin :=
  .inl (Eq.congr same others)

/-- Both answer, and the answers are related, or both fail, and the failures are. -/
inductive Both {ε ι α β : Type} (answers : α → β → Prop) (fails : ε → ι → Prop) :
    Except ε α → Except ι β → Prop where
  | answer {value : α} {twin : β} (alike : answers value twin) :
      Both answers fails (.ok value) (.ok twin)
  | failure {error : ε} {twin : ι} (alike : fails error twin) :
      Both answers fails (.error error) (.error twin)

/-- The names that a leaf mentions; a string is one, since it reads the variable of that name. -/
def Atom.names : Atom → List String
  | .number _ => []
  | .boolean _ => []
  | .string text => [text]
  | .symbol name => [name]

namespace Node

mutual
/-- The names that an expression mentions: all its symbols and strings. -/
def names : Node → List String
  | .leaf atom _ => atom.names
  | .list elements _ => namesOfAll elements

/-- The names that several expressions mention. -/
def namesOfAll : List Node → List String
  | [] => []
  | node :: rest => names node ++ namesOfAll rest
end

end Node

/-- The names that a closure mentions: its parameters, and those of its body. -/
def Closure.names (closure : Closure) : List String :=
  closure.parameters ++ Node.namesOfAll closure.body

/-- No closure in the value mentions another name. -/
def Value.MentionsOnly (names : String → Prop) (value : Value) : Prop :=
  ∀ closure, value.Holds closure → ∀ name ∈ closure.names, names name

/-- The expressions are the same but for places, and mention no name that they may not. -/
inductive Node.Like (like : Likeness) : Node → Node → Prop where
  | leaf {atom : Atom} {span spanTwin : Span} (mentioned : ∀ name ∈ atom.names, like.name name)
      (placed : like.span span spanTwin) : Node.Like like (.leaf atom span) (.leaf atom spanTwin)
  | list {elements elementsTwin : List Node} {span spanTwin : Span}
      (each : List.Forall₂ (Node.Like like) elements elementsTwin)
      (placed : like.span span spanTwin) :
      Node.Like like (.list elements span) (.list elementsTwin spanTwin)

/-- The closures do the same, wherever they were written and whenever they were made. -/
structure Closure.Like (like : Likeness) (closure twin : Closure) : Prop where
  mark : like.mark closure.mark twin.mark
  name? : closure.name? = twin.name?
  parameters : closure.parameters = twin.parameters
  mentioned : ∀ name ∈ closure.parameters, like.name name
  body : List.Forall₂ (Node.Like like) closure.body twin.body
  source : like.source closure.source twin.source

/-- The procedures are one native, or closures that do the same. -/
inductive Procedure.Like (like : Likeness) : Procedure → Procedure → Prop where
  | native (native : Native) : Procedure.Like like (.native native) (.native native)
  | closure {closure twin : Closure} (alike : closure.Like like twin) :
      Procedure.Like like (.closure closure) (.closure twin)

/-- The values are the same but for the closures in them, which do the same. -/
inductive Value.Like (like : Likeness) : Value → Value → Prop where
  | nil : Value.Like like .nil .nil
  | number (value : Float) : Value.Like like (.number value) (.number value)
  | boolean (value : Bool) : Value.Like like (.boolean value) (.boolean value)
  | string (text : String) : Value.Like like (.string text) (.string text)
  | list {items itemsTwin : List Value}
      (each : List.Forall₂ (Value.Like like) items itemsTwin) :
      Value.Like like (.list items) (.list itemsTwin)
  | procedure {procedure twin : Procedure} (alike : procedure.Like like twin) :
      Value.Like like (.procedure procedure) (.procedure twin)

/-- Nothing has to differ. -/
structure Likeness.Reflexive (like : Likeness) : Prop where
  span : ∀ span, like.span span span
  source : ∀ source, like.source source source
  mark : ∀ mark, like.mark mark mark

variable {like : Likeness}

mutual
theorem Node.Like.of_span (same : ∀ span, like.span span span) (node : Node)
    (mentioned : ∀ name ∈ node.names, like.name name) :
    node.Like like node := by
  cases node with
  | leaf atom span => exact .leaf mentioned (same span)
  | list elements span => exact .list (Node.Like.of_spanAll same elements mentioned) (same span)

theorem Node.Like.of_spanAll (same : ∀ span, like.span span span) (nodes : List Node)
    (mentioned : ∀ name ∈ Node.namesOfAll nodes, like.name name) :
    List.Forall₂ (Node.Like like) nodes nodes := by
  cases nodes with
  | nil => exact .nil
  | cons node rest =>
    simp only [Node.namesOfAll, List.mem_append] at mentioned
    exact .cons (Node.Like.of_span same node fun name member => mentioned name (.inl member))
      (Node.Like.of_spanAll same rest fun name member => mentioned name (.inr member))
end

theorem Node.Like.refl (reflexive : like.Reflexive) (node : Node)
    (mentioned : ∀ name ∈ node.names, like.name name) : node.Like like node :=
  .of_span reflexive.span node mentioned

theorem Closure.Like.of_mark {closure : Closure} (marked : like.mark closure.mark closure.mark)
    (text : like.source closure.source closure.source) (same : ∀ span, like.span span span)
    (mentioned : ∀ name ∈ closure.names, like.name name) : closure.Like like closure := by
  simp only [Closure.names, List.mem_append] at mentioned
  refine ⟨marked, rfl, rfl, fun name member => mentioned name (.inl member), ?_, text⟩
  exact Node.Like.of_spanAll same _ fun name member => mentioned name (.inr member)

mutual
/-- A value is like itself if the closures in it are. -/
theorem Value.Like.of_closures (value : Value)
    (each : ∀ closure, value.Holds closure → closure.Like like closure) :
    value.Like like value := by
  cases value with
  | nil => exact .nil
  | number value => exact .number value
  | boolean value => exact .boolean value
  | string text => exact .string text
  | list items =>
    refine .list (Value.Like.of_closuresAll items fun item member closure holds => ?_)
    exact each closure (.item member holds)
  | procedure procedure =>
    cases procedure with
    | native native => exact .procedure (.native native)
    | closure closure => exact .procedure (.closure (each closure .self))

theorem Value.Like.of_closuresAll (values : List Value)
    (each : ∀ value ∈ values, ∀ closure, value.Holds closure → closure.Like like closure) :
    List.Forall₂ (Value.Like like) values values := by
  cases values with
  | nil => exact .nil
  | cons value rest =>
    refine .cons (Value.Like.of_closures value (each value (List.mem_cons_self ..))) ?_
    exact Value.Like.of_closuresAll rest fun other member =>
      each other (List.mem_cons_of_mem _ member)
end

theorem Value.Like.refl (reflexive : like.Reflexive) (value : Value)
    (mentions : value.MentionsOnly like.name) :
    value.Like like value :=
  .of_closures value fun closure holds =>
    .of_mark (reflexive.mark _) (reflexive.source _) reflexive.span (mentions closure holds)

namespace Node

variable {node twin : Node}

theorem Like.symbol? (alike : node.Like like twin) : node.symbol? = twin.symbol? := by
  cases alike with
  | leaf mentioned placed => cases ‹Atom› <;> rfl
  | list elements placed => rfl

theorem Like.mentioned (alike : node.Like like twin) {name : String}
    (named : node.symbol? = some name) : like.name name := by
  cases alike with
  | @leaf atom span spanTwin mentioned placed =>
    cases atom <;> simp only [Node.symbol?, Option.some.injEq, reduceCtorEq] at named
    exact mentioned name (by simp [Atom.names, named])
  | list elements placed => cases named

theorem Like.kind (alike : node.Like like twin) : node.kind = twin.kind := by
  cases alike <;> rfl

theorem Like.span (alike : node.Like like twin) : like.span node.span twin.span := by
  cases alike <;> assumption

mutual
theorem Like.text (node : Node) {twin : Node} (alike : node.Like like twin) :
    node.text = twin.text := by
  cases alike with
  | leaf mentioned placed => rfl
  | list elements placed => rw [Node.text, Node.text, Like.texts _ elements]

theorem Like.texts (nodes : List Node) {twins : List Node}
    (alike : List.Forall₂ (Node.Like like) nodes twins) : texts nodes = texts twins := by
  cases alike with
  | nil => rfl
  | cons first rest => rw [Node.texts, Node.texts, Like.text _ first, Like.texts _ rest]
end

end Node

namespace Value

variable {value twin : Value}

mutual
theorem Like.ofNode (node : Node) {twin : Node} (alike : node.Like like twin) :
    (Value.ofNode node).Like like (Value.ofNode twin) := by
  cases alike with
  | @leaf atom => cases atom <;> constructor
  | list elements placed => exact .list (Like.ofNodes _ elements)

theorem Like.ofNodes (nodes : List Node) {twins : List Node}
    (alike : List.Forall₂ (Node.Like like) nodes twins) :
    List.Forall₂ (Value.Like like) (Value.ofNodes nodes) (Value.ofNodes twins) := by
  cases alike with
  | nil => exact .nil
  | cons first rest => exact .cons (Like.ofNode _ first) (Like.ofNodes _ rest)
end

theorem Like.isTrue (alike : value.Like like twin) : value.isTrue = twin.isTrue := by
  cases alike <;> rfl

end Value

private theorem Procedure.Like.same {first firstTwin second secondTwin : Procedure}
    (alike : first.Like like firstTwin) (others : second.Like like secondTwin) :
    first.same second = firstTwin.same secondTwin := by
  cases alike with
  | native native => cases others <;> rfl
  | closure alike =>
    cases others with
    | native native => rfl
    | closure others => simp only [Procedure.same, like.one alike.mark others.mark]

namespace Value

mutual
theorem Like.same (first : Value) {firstTwin second secondTwin : Value}
    (alike : first.Like like firstTwin) (others : second.Like like secondTwin) :
    first.same second = firstTwin.same secondTwin := by
  cases alike with
  | nil => cases others <;> rfl
  | number value => cases others <;> rfl
  | boolean value => cases others <;> rfl
  | string text => cases others <;> rfl
  | list items =>
    cases others with
    | list itemsBeside =>
      simp only [Value.same]
      exact Like.sameItems _ items itemsBeside
    | _ => rfl
  | procedure alike =>
    cases others with
    | procedure others => exact alike.same others
    | _ => rfl

theorem Like.sameItems (firsts : List Value) {firstTwins seconds secondTwins : List Value}
    (alike : List.Forall₂ (Value.Like like) firsts firstTwins)
    (others : List.Forall₂ (Value.Like like) seconds secondTwins) :
    sameItems firsts seconds = sameItems firstTwins secondTwins := by
  cases alike with
  | nil => cases others <;> rfl
  | cons first rest =>
    cases others with
    | nil => rfl
    | cons second others =>
      rw [Value.sameItems, Value.sameItems, Like.same _ first second, Like.sameItems _ rest others]
end

end Value

namespace Builtin

open Value

variable {arguments twins : List Value}

/-- Answers to arguments that are alike: values that are alike, or the same fault. -/
abbrev Alike (like : Likeness) (answer twin : Answer) : Prop :=
  Both (Value.Like like) Eq answer twin

theorem foldNumbers_alike (operator : String) (combine : Float → Float → Float) (total : Float)
    (position : Nat) (alike : List.Forall₂ (Value.Like like) arguments twins) :
    Alike like (foldNumbers operator combine total position arguments)
      (foldNumbers operator combine total position twins) := by
  induction alike generalizing total position with
  | nil => exact .answer (.number total)
  | cons first rest ih =>
    cases first with
    | number value => exact ih (combine total value) (position + 1)
    | _ => exact .failure rfl

private theorem foldOntoFirst_alike (operator : String) (combine : Float → Float → Float)
    (alike : List.Forall₂ (Value.Like like) arguments twins) :
    Alike like (foldOntoFirst operator combine arguments)
      (foldOntoFirst operator combine twins) := by
  cases alike with
  | nil => exact .failure rfl
  | cons first rest =>
    cases first with
    | number value => exact foldNumbers_alike operator combine value 2 rest
    | _ => exact .failure rfl

private theorem compareNumbers_alike (operator : String) (test : Float → Float → Bool)
    (alike : List.Forall₂ (Value.Like like) arguments twins) :
    Alike like (compareNumbers operator test arguments) (compareNumbers operator test twins) := by
  cases alike with
  | nil => exact .failure rfl
  | cons first rest =>
    cases rest with
    | nil => cases first <;> exact .failure rfl
    | cons second rest =>
      cases first with
      | number value =>
        cases second with
        | number other => exact .answer (.boolean _)
        | _ => exact .failure rfl
      | _ => exact .failure rfl

private theorem compareValues_alike (alike : List.Forall₂ (Value.Like like) arguments twins) :
    Alike like (compareValues arguments) (compareValues twins) := by
  cases alike with
  | nil => exact .failure rfl
  | cons first rest =>
    cases rest with
    | nil => exact .failure rfl
    | cons second rest =>
      simp only [compareValues, Like.same _ first second]
      exact .answer (.boolean _)

private theorem argument_alike (alike : List.Forall₂ (Value.Like like) arguments twins)
    (place : Nat) :
    (argument arguments place).Like like (argument twins place) := by
  induction alike generalizing place with
  | nil => exact .nil
  | cons first rest ih =>
    cases place with
    | zero => exact first
    | succ place => exact ih place

private theorem getElem?_alike (alike : List.Forall₂ (Value.Like like) arguments twins)
    (place : Nat) :
    Option.Rel (Value.Like like) arguments[place]? twins[place]? := by
  induction alike generalizing place with
  | nil => exact .none
  | cons first rest ih =>
    cases place with
    | zero => exact .some first
    | succ place => simpa using ih place

private theorem head?_alike (alike : List.Forall₂ (Value.Like like) arguments twins) :
    Option.Rel (Value.Like like) arguments.head? twins.head? := by
  cases alike with
  | nil => exact .none
  | cons first rest => exact .some first

theorem tail_alike (alike : List.Forall₂ (Value.Like like) arguments twins) :
    List.Forall₂ (Value.Like like) arguments.tail twins.tail := by
  cases alike with
  | nil => exact .nil
  | cons first rest => exact rest

theorem onItems_alike (native expected : String) {argument? twin? : Option Value}
    (alike : Option.Rel (Value.Like like) argument? twin?) {use useTwin : List Value → Value}
    (used : ∀ items itemsTwin, List.Forall₂ (Value.Like like) items itemsTwin →
      (use items).Like like (useTwin itemsTwin)) :
    Alike like (onItems native expected argument? use)
      (onItems native expected twin? useTwin) := by
  cases alike with
  | none => exact .answer (used _ _ .nil)
  | some alike =>
    cases alike with
    | nil => exact .answer (used _ _ .nil)
    | boolean value =>
      cases value with
      | true => exact .failure rfl
      | false => exact .answer (used _ _ .nil)
    | list items => exact .answer (used _ _ items)
    | _ => exact .failure rfl

private theorem lengthOf_alike {argument? twin? : Option Value}
    (alike : Option.Rel (Value.Like like) argument? twin?) :
    Alike like (lengthOf argument?) (lengthOf twin?) := by
  have counted (items itemsTwin : List Value)
      (alike : List.Forall₂ (Value.Like like) items itemsTwin) :
      (Value.number items.length.toFloat).Like like (.number itemsTwin.length.toFloat) := by
    rw [alike.length_eq]
    exact .number _
  cases alike with
  | none => exact onItems_alike "length" "a list or string" .none counted
  | some alike =>
    cases alike with
    | string text => exact .answer (.number _)
    | nil => exact onItems_alike "length" "a list or string" (.some .nil) counted
    | number value =>
      exact onItems_alike "length" "a list or string" (.some (.number value)) counted
    | boolean value =>
      exact onItems_alike "length" "a list or string" (.some (.boolean value)) counted
    | list items => exact onItems_alike "length" "a list or string" (.some (.list items)) counted
    | procedure alike =>
      exact onItems_alike "length" "a list or string" (.some (.procedure alike)) counted

private theorem firstTrueClause_alike (alike : List.Forall₂ (Value.Like like) arguments twins) :
    (firstTrueClause arguments).Like like (firstTrueClause twins) := by
  induction alike with
  | nil => exact .nil
  | cons first rest ih =>
    cases first with
    | list items =>
      cases items with
      | nil => exact ih
      | cons test items =>
        cases items with
        | nil => exact ih
        | cons value items =>
          simp only [firstTrueClause, test.isTrue]
          split
          · exact value
          · exact ih
    | _ => exact ih

private theorem all_isTrue_alike (alike : List.Forall₂ (Value.Like like) arguments twins) :
    arguments.all Value.isTrue = twins.all Value.isTrue := by
  induction alike with
  | nil => rfl
  | cons first rest ih => rw [List.all_cons, List.all_cons, first.isTrue, ih]

private theorem any_isTrue_alike (alike : List.Forall₂ (Value.Like like) arguments twins) :
    arguments.any Value.isTrue = twins.any Value.isTrue := by
  induction alike with
  | nil => rfl
  | cons first rest ih => rw [List.any_cons, List.any_cons, first.isTrue, ih]

/-- A builtin answers alike to arguments that are alike. -/
theorem answer_alike (builtin : Builtin)
    (alike : List.Forall₂ (Value.Like like) arguments twins) :
    Alike like (builtin.answer arguments) (builtin.answer twins) := by
  cases builtin with
  | add => exact foldNumbers_alike _ _ _ _ alike
  | subtract => exact foldOntoFirst_alike _ _ alike
  | multiply => exact foldNumbers_alike _ _ _ _ alike
  | divide => exact foldOntoFirst_alike _ _ alike
  | equal => exact compareValues_alike alike
  | less => exact compareNumbers_alike _ _ alike
  | lessOrEqual => exact compareNumbers_alike _ _ alike
  | greater => exact compareNumbers_alike _ _ alike
  | greaterOrEqual => exact compareNumbers_alike _ _ alike
  | list => exact .answer (.list alike)
  | car => exact onItems_alike _ _ (head?_alike alike) fun _ _ items => argument_alike items 0
  | cdr => exact onItems_alike _ _ (head?_alike alike) fun _ _ items => .list (tail_alike items)
  | cons =>
    refine onItems_alike _ _ (getElem?_alike alike 1) fun _ _ items => ?_
    exact .list (.cons (argument_alike alike 0) items)
  | length => exact lengthOf_alike (head?_alike alike)
  | choose =>
    simp only [answer, (argument_alike alike 0).isTrue]
    split
    · exact .answer (argument_alike alike 1)
    · exact .answer (argument_alike alike 2)
  | cond => exact .answer (firstTrueClause_alike alike)
  | and =>
    simp only [answer, all_isTrue_alike alike]
    exact .answer (.boolean _)
  | or =>
    simp only [answer, any_isTrue_alike alike]
    exact .answer (.boolean _)
  | not =>
    simp only [answer, (argument_alike alike 0).isTrue]
    exact .answer (.boolean _)

end Builtin
end EagerLisp
