import EagerLisp.Proofs.Interpreter.Limit
import EagerLisp.Proofs.Node.Printed
import EagerLisp.Proofs.Value.Same
import EagerLisp.Value

namespace EagerLisp

private theorem escaped_of_plain {c : Char} (plain : c ≠ '"' ∧ c ≠ '\n' ∧ c ≠ '\r' ∧ c ≠ '\t') :
    escaped c = [c] := by
  unfold escaped
  split <;> simp_all

private theorem quotedText_of_plain {text : String}
    (plain : ∀ c ∈ text.toList, c ≠ '"' ∧ c ≠ '\n' ∧ c ≠ '\r' ∧ c ≠ '\t') :
    quotedText text = "\"" ++ text ++ "\"" := by
  have alone : text.toList.map escaped = text.toList.map fun c => [c] :=
    List.map_congr_left fun c member => escaped_of_plain (plain c member)
  have same : text.toList.flatMap escaped = text.toList := by
    rw [List.flatMap_def, alone, ← List.flatMap_def, List.flatMap_singleton']
  rw [← String.toList_inj, quotedText, same]
  simp

namespace Value

mutual
/-- How deep the lists of a value are nested. -/
def depth : Value → Nat
  | .list items => deepest items + 1
  | _ => 0

def deepest : List Value → Nat
  | [] => 0
  | value :: rest => max (depth value) (deepest rest)
end

/-- A value whose text says all about it: neither nil nor procedures, nor the number that is none,
nor characters that are written with a backslash. -/
inductive Plain : Value → Prop where
  | number {value : Float} (known : value.isNaN = false) : Plain (.number value)
  | boolean (value : Bool) : Plain (.boolean value)
  | string {text : String}
      (plain : ∀ c ∈ text.toList, c ≠ '"' ∧ c ≠ '\n' ∧ c ≠ '\r' ∧ c ≠ '\t') :
      Plain (.string text)
  | list {items : List Value} (plain : ∀ item ∈ items, Plain item) : Plain (.list items)

/-- Every finite number in the value is read back from its digits as the same double. -/
def NumbersReadBack (value : Value) : Prop :=
  ∀ number : Float, number.isFinite = true → (Value.number number).Within value →
    Number.ofText? (Number.text number) = some number

theorem numbersReadBack_list {items : List Value} :
    (Value.list items).NumbersReadBack ↔ ∀ item ∈ items, item.NumbersReadBack := by
  constructor
  · intro back item member number finite within
    exact back number finite (.item member within)
  · intro back number finite within
    cases within with
    | item member deeper => exact back _ member number finite deeper

mutual
/-- The expression that a value is printed as, at no place in particular. -/
def toNode : Value → Node
  | .nil => .leaf (.boolean false) ⟨0, 0⟩
  | .number value => .leaf (.number value) ⟨0, 0⟩
  | .boolean value => .leaf (.boolean value) ⟨0, 0⟩
  | .string text => .leaf (.string text) ⟨0, 0⟩
  | .list items => .list (toNodes items) ⟨0, 0⟩
  | .procedure callee => .leaf (.symbol callee.text) ⟨0, 0⟩

def toNodes : List Value → List Node
  | [] => []
  | value :: rest => toNode value :: toNodes rest
end

theorem toNodes_eq_map (values : List Value) : toNodes values = values.map toNode := by
  induction values with
  | nil => rfl
  | cons value rest ih => simp [toNodes, ih]

mutual
theorem depth_toNode (value : Value) : value.toNode.tokenTree.depth = value.depth := by
  cases value with
  | list items =>
    have inner := deepest_toNodes items
    simp [toNode, Node.tokenTree, TokenTree.depth, depth, inner]
  | _ => rfl

theorem deepest_toNodes (values : List Value) :
    TokenTree.deepest (Node.tokenTrees (toNodes values)) = deepest values := by
  cases values with
  | nil => rfl
  | cons value rest =>
    have first := depth_toNode value
    have others := deepest_toNodes rest
    simp [toNodes, Node.tokenTrees, TokenTree.deepest, deepest, first, others]
end

mutual
theorem ofNode_bare (node : Node) : ofNode node.bare = ofNode node := by
  cases node with
  | leaf atom span => rfl
  | list elements span =>
    have inner := ofNodes_bareAll elements
    simp [Node.bare, ofNode, inner]

theorem ofNodes_bareAll (nodes : List Node) : ofNodes (Node.bareAll nodes) = ofNodes nodes := by
  cases nodes with
  | nil => rfl
  | cons node rest =>
    have first := ofNode_bare node
    have others := ofNodes_bareAll rest
    simp [Node.bareAll, ofNodes, first, others]
end

namespace Plain

variable {value : Value}

theorem text_toNode (plain : value.Plain) : value.toNode.text = value.text := by
  induction plain with
  | number _ => rfl
  | boolean _ => rfl
  | string unescaped => exact (quotedText_of_plain unescaped).symm
  | @list items _ ih =>
    have inner : items.map (Node.text ∘ toNode) = items.map text := List.map_congr_left ih
    simp [toNode, toNodes_eq_map, Node.text, Node.texts_eq_map, text, texts_eq_map, inner]

theorem ofNode_toNode (plain : value.Plain) : ofNode value.toNode = value := by
  induction plain with
  | number _ => rfl
  | boolean _ => rfl
  | string _ => rfl
  | @list items _ ih =>
    have inner : items.map (ofNode ∘ toNode) = items.map id := List.map_congr_left ih
    simp [toNode, toNodes_eq_map, ofNode, ofNodes_eq_map, inner]

private theorem number_read_back {number : Float} (known : number.isNaN = false)
    (back : (Value.number number).NumbersReadBack) :
    Number.ofText? (Number.text number) = some number := by
  cases finite : number.isFinite with
  | true => exact back number finite .self
  | false => exact Number.ofText?_text_of_infinite known finite

/-- Every atom that a value is printed with is cut as that atom, and is read back from its text. -/
theorem atom_toNode (plain : value.Plain) (back : value.NumbersReadBack) {atom : Atom} {span : Span}
    (within : (Node.leaf atom span).Within value.toNode) :
    Token.IsClosedAtom atom.text.toList ∧ Atom.ofText atom.text = atom := by
  induction plain with
  | number known =>
    cases within
    have read := number_read_back known back
    exact ⟨Number.isClosedAtom_of_ofText? read, Atom.ofText_of_number read⟩
  | boolean value =>
    cases within
    cases value <;> exact ⟨⟨⟨by decide, rfl⟩, rfl⟩, rfl⟩
  | @string text unescaped =>
    cases within
    have plain : '"' ∉ text.toList := fun member => (unescaped _ member).1 rfl
    refine ⟨?_, Atom.ofText_quoted text⟩
    simpa [Atom.text] using Token.IsClosedAtom.quoted plain
  | list _ ih =>
    rw [toNode, toNodes_eq_map] at within
    cases within with
    | element member deeper =>
      obtain ⟨item, present, rfl⟩ := List.mem_map.mp member
      exact ih item present (numbersReadBack_list.mp back item present) deeper

theorem not_hasNaN (plain : value.Plain) : ¬value.HasNaN := by
  induction plain with
  | number known => simpa [hasNaN_number] using known
  | boolean _ => exact Value.not_hasNaN (by simp) (by simp)
  | string _ => exact Value.not_hasNaN (by simp) (by simp)
  | list _ ih =>
    rw [hasNaN_list]
    rintro ⟨item, member, inside⟩
    exact ih item member inside

theorem same_self (plain : value.Plain) : value.same value = true :=
  (same_self_iff value).mpr plain.not_hasNaN

end Plain

/-- The expression that quotes what a value is printed as. -/
def quoted (value : Value) : Node :=
  .list [.leaf (.symbol "quote") ⟨0, 0⟩, value.toNode] ⟨0, 0⟩

namespace Plain

variable {value : Value}

private theorem text_quoted (plain : value.Plain) :
    value.quoted.text = "(quote " ++ value.text ++ ")" := by
  simp [quoted, Node.text, Node.texts, plain.text_toNode, Atom.text, ← String.toList_inj]

private theorem atom_quoted (plain : value.Plain) (back : value.NumbersReadBack) {atom : Atom}
    {span : Span} (within : (Node.leaf atom span).Within value.quoted) :
    Token.IsClosedAtom atom.text.toList ∧ Atom.ofText atom.text = atom := by
  cases within with
  | element member deeper =>
    rcases List.mem_cons.mp member with rfl | member
    · cases deeper
      exact ⟨⟨⟨by decide, by decide⟩, by decide⟩, by decide +kernel⟩
    · obtain rfl := List.mem_singleton.mp member
      exact plain.atom_toNode back deeper

end Plain

end Value

/-- An expression is read from its text if each of its atoms is cut and read back by itself. -/
theorem Reader.read_text_of_atoms {node : Node}
    (atoms : ∀ atom span, (Node.leaf atom span).Within node →
      Token.IsClosedAtom atom.text.toList ∧ Atom.ofText atom.text = atom)
    (fits : node.tokenTree.depth ≤ nestingLimit) :
    ∃ again, read (Token.ofString node.text) = (.ok again, []) ∧ again.bare = node.bare :=
  read_text (.closed fun atom span within => (atoms atom span within).1)
    (fun atom span within => (atoms atom span within).2) fits

/-- What stands where a quoted value stands is a quotation of it, wherever its parts stand. -/
theorem Node.exists_of_bare_quoted {node : Node} {value : Value}
    (same : node.bare = value.quoted.bare) :
    ∃ operand place span, node = .list [.leaf (.symbol "quote") place, operand] span ∧
      operand.bare = value.toNode.bare := by
  simp only [Value.quoted, bare, bareAll] at same
  cases node with
  | leaf atom span => simp [bare] at same
  | list elements span =>
    simp only [bare, bareAll_eq_map, list.injEq, List.map_eq_cons_iff, List.map_eq_nil_iff] at same
    obtain ⟨⟨head, rest, rfl, quote, operand, others, rfl, operandSame, rfl⟩, _⟩ := same
    cases head with
    | leaf atom place =>
      cases quote
      exact ⟨operand, place, span, rfl, operandSame⟩
    | list _ _ => simp [bare] at quote

namespace Eval

/-- Quoting needs one level only, and it neither reads nor changes the store. -/
theorem evaluate_quoted {σ : Type} {context : Context σ} (enough : 1 ≤ context.limit) (source : Nat)
    {node : Node} {value : Value} (same : node.bare = value.quoted.bare) (plain : value.Plain)
    (store : Store σ) : evaluate context source node store = (.ok value, store) := by
  obtain ⟨operand, place, span, rfl, inner⟩ := Node.exists_of_bare_quoted same
  obtain ⟨remaining, limit⟩ := Nat.exists_eq_add_of_le' enough
  have data : Value.ofNode operand = value := by
    rw [← Value.ofNode_bare, inner, Value.ofNode_bare, plain.ofNode_toNode]
  rw [evaluate, limit, evaluateWithin, ← data]
  rfl

end Eval

namespace Interpreter

theorem evaluate_quoted {σ : Type} {interpreter : Interpreter σ} (host : Host σ)
    (enough : 1 ≤ interpreter.limit) {source : String} {node : Node} {value : Value}
    (read : Reader.read (Token.ofString source) = (.ok node, []))
    (same : node.bare = value.quoted.bare) (plain : value.Plain) :
    interpreter.evaluate host source =
      (.ok value,
        { interpreter with
          store := { interpreter.store with
            events := .started node :: interpreter.store.events }
          sources := interpreter.sources + 1 }) := by
  obtain ⟨token, rest, tokens⟩ : ∃ token rest, Token.ofString source = token :: rest := by
    refine List.exists_cons_of_ne_nil fun empty => ?_
    rw [empty] at read
    simp [Reader.read, Reader.readInto] at read
  rw [tokens] at read
  have run : runNode (interpreter.context host) (interpreter.sources + 1) node interpreter.store =
      (.ok value, { interpreter.store with
        events := .started node :: interpreter.store.events }) := by
    rw [runNode, Eval.evaluate_quoted enough _ same plain]
  rw [evaluate, tokens, runTokens_of_ok read run, runTokens]

end Interpreter

namespace Value

/-- The text of a plain value is read as the value, if its lists are nested no deeper than lists
may be. Quoting takes one more level of lists; then the quotation of the text gives the value under
any limit but zero, whatever is bound, and leaves everything as it is. This rests on the finite
numbers only, whose digits have to be read back as the same double. -/
theorem text_reads_back (value : Value) (plain : value.Plain) (back : value.NumbersReadBack) :
    (value.depth ≤ Reader.nestingLimit →
      ∃ node, Reader.readExpression value.text = .ok node ∧ ofNode node = value ∧
        (ofNode node).same value = true) ∧
    (value.depth < Reader.nestingLimit →
      ∃ node, Reader.readExpression ("(quote " ++ value.text ++ ")") = .ok node ∧
        (∀ (σ : Type) (context : Context σ) (source : Nat) (store : Store σ),
          1 ≤ context.limit → Eval.evaluate context source node store = (.ok value, store)) ∧
        ∀ (σ : Type) (interpreter : Interpreter σ) (host : Host σ), 1 ≤ interpreter.limit →
          interpreter.evaluate host ("(quote " ++ value.text ++ ")") =
            (.ok value,
              { interpreter with
                store := { interpreter.store with
                  events := .started node :: interpreter.store.events }
                sources := interpreter.sources + 1 })) := by
  constructor
  · intro fits
    rw [← depth_toNode] at fits
    obtain ⟨node, read, same⟩ := Reader.read_text_of_atoms (fun _ _ => plain.atom_toNode back) fits
    have data : ofNode node = value := by
      rw [← ofNode_bare, same, ofNode_bare, plain.ofNode_toNode]
    rw [plain.text_toNode] at read
    exact ⟨node, Reader.readExpression_of_read read, data, data ▸ plain.same_self⟩
  · intro fits
    have deeper : value.quoted.tokenTree.depth ≤ Reader.nestingLimit := by
      simp only [quoted, Node.tokenTree, Node.tokenTrees, TokenTree.depth, TokenTree.deepest,
        depth_toNode]
      omega
    obtain ⟨node, read, same⟩ :=
      Reader.read_text_of_atoms (fun _ _ => plain.atom_quoted back) deeper
    rw [plain.text_quoted] at read
    refine ⟨node, Reader.readExpression_of_read read, ?_, ?_⟩
    · intro σ context source store enough
      exact Eval.evaluate_quoted enough source same plain store
    · intro σ interpreter host enough
      exact Interpreter.evaluate_quoted host enough read same plain

/-- A fraction, a string with what would otherwise be parentheses, a comment and an escape, a truth
value, an empty list and an infinity, under a limit of one. -/
theorem text_reads_back_of_list :
    let number := Number.Literal.value (.decimal false 150 (-2))
    let value : Value :=
      .list [.number number, .string "a (b; \\", .boolean true, .list [], .number (1 / 0)]
    value.text = "(1.5 \"a (b; \\\" t () Infinity)" ∧ value.Plain ∧ value.NumbersReadBack ∧
      (∃ node, Reader.readExpression "(1.5 \"a (b; \\\" t () Infinity)" = .ok node ∧
        ofNode node = value) ∧
      ∀ (σ : Type) (host : Host σ) (state : σ),
        ((Interpreter.new state 1).evaluate host
          "(quote (1.5 \"a (b; \\\" t () Infinity))").1 = .ok value := by
  intro number value
  have plain : value.Plain := by
    refine .list fun item member => ?_
    simp only [List.mem_cons, List.not_mem_nil, or_false] at member
    rcases member with rfl | rfl | rfl | rfl | rfl
    · exact .number (by decide +kernel)
    · exact .string (by simp)
    · exact .boolean true
    · exact .list (by simp)
    · exact .number (by decide +kernel)
  have back : value.NumbersReadBack := by
    refine numbersReadBack_list.mpr fun item member other finite within => ?_
    simp only [List.mem_cons, List.not_mem_nil, or_false] at member
    rcases member with rfl | rfl | rfl | rfl | rfl <;> cases within
    · decide +kernel
    · simp_all
    · exact absurd finite (by decide +kernel)
  have text : value.text = "(1.5 \"a (b; \\\" t () Infinity)" := by decide +kernel
  obtain ⟨reading, quoting⟩ := text_reads_back value plain back
  obtain ⟨node, read, same, _⟩ := reading (by decide)
  obtain ⟨_, _, _, evaluated⟩ := quoting (by decide)
  rw [text] at read evaluated
  refine ⟨text, plain, back, ⟨node, read, same⟩, ?_⟩
  intro σ host state
  have result := evaluated σ (.new state 1) host (Nat.le_refl 1)
  exact congrArg Prod.fst result

end Value
end EagerLisp
