import PythonLint.Proofs.GroupKinds

/-!
# Separators and the constructs that own them

Between the brackets of a group all constructs lie flat: a `lambda` brings a colon and the commas
between its parameters, a comprehension the commas between its targets. `Phrase` is the grammar by
which every `lambda` has its colon, and a scan that counts open functions passes over a phrase
without a trace. So the separators of dictionaries are found whatever functions stand in keys and
values. Tuples and slices are recognised without such a count, and there the separators of inner
constructs decide.

Main statements: `Phrase.separatorsFrom_append`, `kind_of_isDisplay`, `classify_of_innerSeparators`.
-/

namespace PythonLint

namespace Node

variable {node : Node} {text other : String}

/-- The node is neither a separator nor the start of a function. -/
def IsInert (node : Node) : Prop :=
  node.isOp "," = false ∧ node.isOp ":" = false ∧ node.isKeyword "lambda" = false

theorem isOp_eq_false_of_isOp (h : node.isOp text = true) (hne : text ≠ other) :
    node.isOp other = false := by
  cases node with
  | leaf before token =>
    simp only [isOp, Token.isOp, Bool.and_eq_true, beq_iff_eq] at h
    simp [isOp, Token.isOp, h.2, hne]
  | branch => rfl

theorem isKeyword_eq_false_of_isOp (h : node.isOp text = true) : node.isKeyword other = false := by
  cases node with
  | leaf before token =>
    simp only [isOp, Token.isOp, Bool.and_eq_true, beq_iff_eq] at h
    simp [isKeyword, h.1]
  | branch => rfl

theorem isOp_eq_false_of_isKeyword (h : node.isKeyword text = true) : node.isOp other = false := by
  by_contra hop
  rw [isKeyword_eq_false_of_isOp (Bool.of_not_eq_false hop)] at h
  cases h

theorem isKeyword_eq_false_of_isKeyword (h : node.isKeyword text = true) (hne : text ≠ other) :
    node.isKeyword other = false := by
  cases node with
  | leaf before token =>
    simp only [isKeyword, Bool.and_eq_true, beq_iff_eq] at h
    simp [isKeyword, h.2, hne]
  | branch => rfl

theorem isInert_of_isKeyword (h : node.isKeyword text = true) (hne : text ≠ "lambda") :
    node.IsInert :=
  ⟨isOp_eq_false_of_isKeyword h, isOp_eq_false_of_isKeyword h,
    isKeyword_eq_false_of_isKeyword h hne⟩

theorem isInert_of_isOp (h : node.isOp text = true) (hcomma : text ≠ ",") (hcolon : text ≠ ":") :
    node.IsInert :=
  ⟨isOp_eq_false_of_isOp h hcomma, isOp_eq_false_of_isOp h hcolon, isKeyword_eq_false_of_isOp h⟩

theorem separates_or_isInert (node : Node) :
    node.isKeyword "lambda" = true ∨ node.isOp "," = true ∨ node.isOp ":" = true ∨
    node.IsInert := by
  rw [IsInert]
  cases node.isKeyword "lambda" <;> cases node.isOp "," <;> cases node.isOp ":" <;> simp

end Node

/-- Nodes in which every colon belongs to a `lambda`. All commas stand between the parameters of
functions, unless the nodes are a list. -/
inductive Phrase : (listed : Bool) → List Node → Prop
  | nil {listed : Bool} : Phrase listed []
  | inert {listed : Bool} {node : Node} {rest : List Node} (hnode : node.IsInert)
    (hrest : Phrase listed rest) : Phrase listed (node :: rest)
  | function {listed : Bool} {word colon : Node} {parameters body : List Node}
    (hword : word.isKeyword "lambda" = true) (hparameters : Phrase true parameters)
    (hcolon : colon.isOp ":" = true) (hbody : Phrase listed body) :
    Phrase listed (word :: parameters ++ colon :: body)
  | comma {comma : Node} {rest : List Node} (hcomma : comma.isOp "," = true)
    (hrest : Phrase true rest) : Phrase true (comma :: rest)

/-- Nodes that are a phrase after `lambdas` words `lambda` whose colons are still to come. -/
def completesPhrase (listed : Bool) : (lambdas : Nat) → List Node → Bool
  | lambdas, [] => lambdas == 0
  | lambdas, node :: rest =>
    if node.isKeyword "lambda" then completesPhrase listed (lambdas + 1) rest
    else if node.isOp "," then (listed || lambdas != 0) && completesPhrase listed lambdas rest
    else if node.isOp ":" then lambdas != 0 && completesPhrase listed (lambdas - 1) rest
    else completesPhrase listed lambdas rest

section Steps

variable {node : Node} {rest : List Node} {lambdas : Nat} {paired listed : Bool}

theorem separatorsFrom_inert (h : node.IsInert) :
    separatorsFrom lambdas paired (node :: rest) = separatorsFrom lambdas paired rest := by
  simp [separatorsFrom, h.1, h.2.1, h.2.2]

theorem separatorsFrom_lambda (h : node.isKeyword "lambda" = true) :
    separatorsFrom lambdas paired (node :: rest) = separatorsFrom (lambdas + 1) paired rest := by
  simp [separatorsFrom, h]

/-- The colon of a function ends its parameters. -/
theorem separatorsFrom_colon_succ (h : node.isOp ":" = true) :
    separatorsFrom (lambdas + 1) paired (node :: rest) = separatorsFrom lambdas paired rest := by
  simp [separatorsFrom, h, Node.isKeyword_eq_false_of_isOp h]

theorem separatorsFrom_comma_succ (h : node.isOp "," = true) :
    separatorsFrom (lambdas + 1) paired (node :: rest) =
      separatorsFrom (lambdas + 1) paired rest := by
  have hcolon : node.isOp ":" = false := Node.isOp_eq_false_of_isOp h (by decide)
  simp [separatorsFrom, h, hcolon, Node.isKeyword_eq_false_of_isOp h]

theorem separatorsFrom_colon_zero (h : node.isOp ":" = true) :
    separatorsFrom 0 false (node :: rest) = node :: separatorsFrom 0 true rest := by
  have hcomma : node.isOp "," = false := Node.isOp_eq_false_of_isOp h (by decide)
  simp [separatorsFrom, h, hcomma, Node.isKeyword_eq_false_of_isOp h]

/-- A comma that no function owns starts the next item. -/
theorem separatorsFrom_comma_zero (h : node.isOp "," = true) :
    separatorsFrom 0 paired (node :: rest) = separatorsFrom 0 false rest := by
  simp [separatorsFrom, h, Node.isKeyword_eq_false_of_isOp h]

theorem completesPhrase_inert (h : node.IsInert) :
    completesPhrase listed lambdas (node :: rest) = completesPhrase listed lambdas rest := by
  simp [completesPhrase, h.1, h.2.1, h.2.2]

theorem completesPhrase_lambda (h : node.isKeyword "lambda" = true) :
    completesPhrase listed lambdas (node :: rest) = completesPhrase listed (lambdas + 1) rest := by
  simp [completesPhrase, h]

theorem completesPhrase_comma (h : node.isOp "," = true) :
    completesPhrase listed lambdas (node :: rest) =
      ((listed || lambdas != 0) && completesPhrase listed lambdas rest) := by
  simp [completesPhrase, h, Node.isKeyword_eq_false_of_isOp h]

theorem completesPhrase_colon (h : node.isOp ":" = true) :
    completesPhrase listed lambdas (node :: rest) =
      (lambdas != 0 && completesPhrase listed (lambdas - 1) rest) := by
  have hcomma : node.isOp "," = false := Node.isOp_eq_false_of_isOp h (by decide)
  simp [completesPhrase, h, hcomma, Node.isKeyword_eq_false_of_isOp h]

end Steps

namespace Phrase

variable {listed : Bool} {nodes left right : List Node}

theorem toList (h : Phrase listed nodes) : Phrase true nodes := by
  induction h with
  | nil => exact .nil
  | inert hnode _ ih => exact .inert hnode ih
  | function hword hparameters hcolon _ _ ih => exact .function hword hparameters hcolon ih
  | comma hcomma _ ih => exact .comma hcomma ih

theorem append (hleft : Phrase listed left) (hright : Phrase listed right) :
    Phrase listed (left ++ right) := by
  induction hleft with
  | nil => exact hright
  | inert hnode _ ih => exact .inert hnode (ih hright)
  | function hword hparameters hcolon _ _ ih =>
    rw [List.append_assoc, List.cons_append]
    exact .function hword hparameters hcolon (ih hright)
  | comma hcomma _ ih => exact .comma hcomma (ih hright)

/-- A scan passes over a phrase and is in the state that it was in. For a list it has to be inside
the parameters of a function, where commas do not count. -/
theorem separatorsFrom_append (h : Phrase listed nodes) {lambdas : Nat}
    (hlambdas : listed = true → 0 < lambdas) (paired : Bool) (rest : List Node) :
    separatorsFrom lambdas paired (nodes ++ rest) = separatorsFrom lambdas paired rest := by
  induction h generalizing lambdas paired rest with
  | nil => rfl
  | inert hnode _ ih => rw [List.cons_append, separatorsFrom_inert hnode, ih hlambdas]
  | @function _ word colon parameters body hword _ hcolon _ ihparameters ihbody =>
    calc separatorsFrom lambdas paired (word :: parameters ++ colon :: body ++ rest)
        = separatorsFrom (lambdas + 1) paired (parameters ++ (colon :: (body ++ rest))) := by
          rw [List.append_assoc, List.cons_append, List.cons_append, separatorsFrom_lambda hword]
      -- The parameters are a list, and they are read with one function more waiting for its colon.
      _ = separatorsFrom (lambdas + 1) paired (colon :: (body ++ rest)) :=
          ihparameters (fun _ => Nat.succ_pos lambdas) paired _
      _ = separatorsFrom lambdas paired (body ++ rest) := separatorsFrom_colon_succ hcolon
      _ = separatorsFrom lambdas paired rest := ihbody hlambdas paired rest
  | comma hcomma _ ih =>
    obtain ⟨outer, rfl⟩ := Nat.exists_eq_succ_of_ne_zero (Nat.ne_of_gt (hlambdas rfl))
    rw [List.cons_append, separatorsFrom_comma_succ hcomma, ih hlambdas]

/-- No colon of a phrase stands between a key and a value. -/
theorem separatorsFrom_eq_nil (h : Phrase listed nodes) (paired : Bool) :
    separatorsFrom 0 paired nodes = [] := by
  induction h generalizing paired with
  | nil => rfl
  | inert hnode _ ih => rw [separatorsFrom_inert hnode, ih]
  | function hword hparameters hcolon _ _ ih =>
    rw [List.cons_append, separatorsFrom_lambda hword,
      hparameters.separatorsFrom_append (fun _ => Nat.succ_pos 0),
      separatorsFrom_colon_succ hcolon, ih]
  | comma hcomma _ ih => rw [separatorsFrom_comma_zero hcomma, ih]

/-- Counting the functions that wait for their colons passes over a phrase too. -/
theorem completesPhrase_append {inner : Bool} (h : Phrase inner nodes) {lambdas : Nat}
    (hinner : inner = true → listed = true ∨ 0 < lambdas) (rest : List Node) :
    completesPhrase listed lambdas (nodes ++ rest) = completesPhrase listed lambdas rest := by
  induction h generalizing lambdas rest with
  | nil => rfl
  | inert hnode _ ih => rw [List.cons_append, completesPhrase_inert hnode, ih hinner]
  | function hword _ hcolon _ ihparameters ihbody =>
    rw [List.append_assoc, List.cons_append, List.cons_append, completesPhrase_lambda hword,
      ihparameters (fun _ => .inr (Nat.succ_pos lambdas)), completesPhrase_colon hcolon]
    exact ihbody hinner rest
  | comma hcomma _ ih =>
    have hallowed : (listed || lambdas != 0) = true := by
      simpa [Nat.pos_iff_ne_zero] using hinner rfl
    rw [List.cons_append, completesPhrase_comma hcomma, ih hinner, hallowed, Bool.true_and]

/-- Nodes that complete a phrase hold the colon of the innermost open function, after the rest of
its parameters. -/
theorem exists_of_completesPhrase {lambdas bound : Nat} (hbound : nodes.length ≤ bound)
    (h : completesPhrase listed lambdas nodes = true) :
    (lambdas = 0 → Phrase listed nodes) ∧ ∀ outer, lambdas = outer + 1 → ∃ parameters colon body,
      nodes = parameters ++ colon :: body ∧ Phrase true parameters ∧ colon.isOp ":" = true ∧
        completesPhrase listed outer body = true := by
  -- After a function the argument goes on with its body, which is shorter but no tail that a list
  -- induction gives.
  induction bound generalizing nodes lambdas with
  | zero =>
    obtain rfl := List.length_eq_zero_iff.mp (Nat.le_zero.mp hbound)
    obtain rfl : lambdas = 0 := by simpa [completesPhrase] using h
    exact ⟨fun _ => .nil, fun outer houter => by omega⟩
  | succ bound ih =>
    cases nodes with
    | nil => exact ih (Nat.zero_le bound) h
    | cons node rest =>
      have hrest : rest.length ≤ bound := Nat.le_of_succ_le_succ hbound
      obtain hword | hcomma | hcolon | hnode := node.separates_or_isInert
      · rw [completesPhrase_lambda hword] at h
        obtain ⟨parameters, colon, body, rfl, hparameters, hcolon, hbody⟩ :=
          (ih hrest h).2 lambdas rfl
        have hshorter : body.length ≤ bound := by
          rw [List.length_append, List.length_cons] at hrest
          omega
        refine ⟨fun hzero => .function hword hparameters hcolon ((ih hshorter hbody).1 hzero),
          fun outer houter => ?_⟩
        -- The function ends before the colon of the one around it.
        obtain ⟨later, colon', body', rfl, hlater, hcolon', hbody'⟩ :=
          (ih hshorter hbody).2 outer houter
        exact ⟨node :: parameters ++ colon :: later, colon', body', by simp,
          .function hword hparameters hcolon hlater, hcolon', hbody'⟩
      · rw [completesPhrase_comma hcomma, Bool.and_eq_true] at h
        refine ⟨fun hzero => ?_, fun outer houter => ?_⟩
        · obtain rfl : listed = true := by simpa [hzero] using h.1
          exact .comma hcomma ((ih hrest h.2).1 hzero)
        · obtain ⟨parameters, colon, body, rfl, hparameters, hbody⟩ := (ih hrest h.2).2 outer houter
          exact ⟨node :: parameters, colon, body, rfl, .comma hcomma hparameters, hbody⟩
      · rw [completesPhrase_colon hcolon, Bool.and_eq_true] at h
        refine ⟨fun hzero => ?_, fun outer houter => ⟨[], node, rest, rfl, .nil, hcolon, ?_⟩⟩
        · simp [hzero] at h
        · simpa [houter] using h.2
      · rw [completesPhrase_inert hnode] at h
        refine ⟨fun hzero => .inert hnode ((ih hrest h).1 hzero), fun outer houter => ?_⟩
        obtain ⟨parameters, colon, body, rfl, hparameters, hbody⟩ := (ih hrest h).2 outer houter
        exact ⟨node :: parameters, colon, body, rfl, .inert hnode hparameters, hbody⟩

theorem iff_completesPhrase : Phrase listed nodes ↔ completesPhrase listed 0 nodes = true := by
  refine ⟨fun h => ?_, fun h => (exists_of_completesPhrase (Nat.le_refl _) h).1 rfl⟩
  rw [← List.append_nil nodes, h.completesPhrase_append .inl]
  rfl

instance : Decidable (Phrase listed nodes) :=
  decidable_of_iff _ iff_completesPhrase.symm

end Phrase

/-- The clauses after the expression of a comprehension. There may be none. -/
inductive IsClauses : List Node → Prop
  | nil : IsClauses []
  | loop {word preposition : Node} {targets source rest : List Node}
    (hword : word.isKeyword "for" = true) (htargets : Phrase true targets)
    (hpreposition : preposition.isKeyword "in" = true) (hsource : Phrase false source)
    (hrest : IsClauses rest) : IsClauses (word :: targets ++ preposition :: source ++ rest)
  | async {word : Node} {rest : List Node} (hword : word.isKeyword "async" = true)
    (hrest : IsClauses rest) : IsClauses (word :: rest)
  | condition {word : Node} {test rest : List Node} (hword : word.isKeyword "if" = true)
    (htest : Phrase false test) (hrest : IsClauses rest) : IsClauses (word :: test ++ rest)

theorem IsClauses.phrase {clauses : List Node} (h : IsClauses clauses) : Phrase true clauses := by
  induction h with
  | nil => exact .nil
  | loop hword htargets hpreposition hsource _ ih =>
    refine ((Phrase.inert (Node.isInert_of_isKeyword hword (by decide)) htargets).append ?_).append
      ih
    exact .inert (Node.isInert_of_isKeyword hpreposition (by decide)) hsource.toList
  | async hword _ ih => exact .inert (Node.isInert_of_isKeyword hword (by decide)) ih
  | condition hword htest _ ih =>
    exact (Phrase.inert (Node.isInert_of_isKeyword hword (by decide)) htest.toList).append ih

/-- An item of a dictionary, with the colon between its key and its value. -/
inductive IsItem : (nodes colons : List Node) → Prop
  | pair {key value : List Node} {colon : Node} (hkey : Phrase false key)
    (hcolon : colon.isOp ":" = true) (hvalue : Phrase false value) :
    IsItem (key ++ colon :: value) [colon]
  | unpack {stars : Node} {mapping : List Node} (hstars : stars.isOp "**" = true)
    (hmapping : Phrase false mapping) : IsItem (stars :: mapping) []

/-- An element of a set. It has no colon of its own. -/
inductive IsElement : (nodes colons : List Node) → Prop
  | expression {first : Node} {rest : List Node} (hfirst : first.isOp "**" = false)
    (hexpression : Phrase false (first :: rest)) : IsElement (first :: rest) []

/-- Parts with commas between them and maybe one after the last, and the colons of all parts. -/
inductive Entries (part : List Node → List Node → Prop) : (nodes colons : List Node) → Prop
  | last {nodes colons : List Node} (hpart : part nodes colons) : Entries part nodes colons
  | trailing {nodes colons : List Node} {comma : Node} (hpart : part nodes colons)
    (hcomma : comma.isOp "," = true) : Entries part (nodes ++ [comma]) colons
  | more {nodes colons rest later : List Node} {comma : Node} (hpart : part nodes colons)
    (hcomma : comma.isOp "," = true) (hrest : Entries part rest later) :
    Entries part (nodes ++ comma :: rest) (colons ++ later)

/-- What stands between braces, with the colons between keys and values and the kind of the
group. -/
inductive IsDisplay : (contents colons : List Node) → BranchKind → Prop
  | empty : IsDisplay [] [] .dictDisplay
  | items {contents colons : List Node} (hitems : Entries IsItem contents colons) :
    IsDisplay contents colons .dictDisplay
  | elements {contents : List Node} (helements : Entries IsElement contents []) :
      IsDisplay contents [] .setDisplay
  | itemLoop {key value clauses : List Node} {colon : Node} (hkey : Phrase false key)
    (hcolon : colon.isOp ":" = true) (hvalue : Phrase false value) (hclauses : IsClauses clauses) :
    IsDisplay (key ++ colon :: value ++ clauses) [colon] .dictDisplay
  | elementLoop {element clauses : List Node} (helement : IsElement element [])
    (hclauses : IsClauses clauses) : IsDisplay (element ++ clauses) [] .setDisplay

/-- A scan from the start of an item finds just the colons, whatever comes after the nodes. -/
def FindsColons (nodes colons : List Node) : Prop :=
  ∃ paired, ∀ rest, separatorsFrom 0 false (nodes ++ rest) = colons ++ separatorsFrom 0 paired rest

section Displays

variable {contents colons nodes : List Node} {kind : BranchKind}

theorem separatorsFrom_pair {key value : List Node} {colon : Node} (hkey : Phrase false key)
    (hcolon : colon.isOp ":" = true) (hvalue : Phrase false value) (rest : List Node) :
    separatorsFrom 0 false (key ++ colon :: value ++ rest) =
      colon :: separatorsFrom 0 true rest := by
  rw [List.append_assoc, List.cons_append, hkey.separatorsFrom_append nofun,
    separatorsFrom_colon_zero hcolon, hvalue.separatorsFrom_append nofun]

theorem IsItem.findsColons (h : IsItem nodes colons) : FindsColons nodes colons := by
  cases h with
  | pair hkey hcolon hvalue => exact ⟨true, separatorsFrom_pair hkey hcolon hvalue⟩
  | unpack hstars hmapping =>
    refine ⟨false, fun rest => ?_⟩
    rw [List.cons_append,
      separatorsFrom_inert (Node.isInert_of_isOp hstars (by decide) (by decide)),
      hmapping.separatorsFrom_append nofun, List.nil_append]

theorem IsElement.findsColons (h : IsElement nodes colons) : FindsColons nodes colons := by
  cases h with
  | expression _ hexpression => exact ⟨false, hexpression.separatorsFrom_append nofun false⟩

namespace Entries

variable {part : List Node → List Node → Prop}

/-- The colons of the parts are found one after the other. -/
theorem keySeparators_eq (hfinds : ∀ {nodes colons}, part nodes colons → FindsColons nodes colons)
    (h : Entries part nodes colons) : keySeparators nodes = colons := by
  induction h with
  | last hpart =>
    obtain ⟨paired, hscan⟩ := hfinds hpart
    simpa [keySeparators, separatorsFrom] using hscan []
  | trailing hpart hcomma =>
    obtain ⟨paired, hscan⟩ := hfinds hpart
    rw [keySeparators, hscan, separatorsFrom_comma_zero hcomma, separatorsFrom, List.append_nil]
  | more hpart hcomma _ ih =>
    -- Whether the part had its colon does not matter after the comma.
    obtain ⟨paired, hscan⟩ := hfinds hpart
    rw [keySeparators, hscan, separatorsFrom_comma_zero hcomma]
    exact congrArg _ ih

theorem exists_first (h : Entries part nodes colons) :
    ∃ first rest owned others, nodes = first ++ rest ∧ colons = owned ++ others ∧
      part first owned := by
  cases h with
  | last hpart => exact ⟨_, [], _, [], (List.append_nil _).symm, (List.append_nil _).symm, hpart⟩
  | trailing hpart _ => exact ⟨_, _, _, [], rfl, (List.append_nil _).symm, hpart⟩
  | more hpart _ _ => exact ⟨_, _, _, _, rfl, rfl, hpart⟩

end Entries

theorem classifyBraces_eq_dictDisplay
    (h : contents = [] ∨ contents.head?.any (·.isOp "**") = true ∨ keySeparators contents ≠ []) :
    classifyBraces contents = .dictDisplay := by
  rw [classifyBraces, if_pos]
  simpa [or_assoc] using h

theorem classifyBraces_eq_setDisplay {first : Node} {rest : List Node}
    (hfirst : first.isOp "**" = false) (hcolons : keySeparators (first :: rest) = []) :
    classifyBraces (first :: rest) = .setDisplay := by
  rw [classifyBraces, if_neg]
  simp [hfirst, hcolons]

namespace IsDisplay

theorem keySeparators_eq (h : IsDisplay contents colons kind) :
    keySeparators contents = colons := by
  cases h with
  | empty => rfl
  | items hitems => exact hitems.keySeparators_eq IsItem.findsColons
  | elements helements => exact helements.keySeparators_eq IsElement.findsColons
  | itemLoop hkey hcolon hvalue hclauses =>
    rw [keySeparators, separatorsFrom_pair hkey hcolon hvalue,
      hclauses.phrase.separatorsFrom_eq_nil]
  | elementLoop helement hclauses =>
    obtain ⟨paired, hscan⟩ := helement.findsColons
    rw [keySeparators, hscan, hclauses.phrase.separatorsFrom_eq_nil, List.nil_append]

theorem classifyBraces_eq (h : IsDisplay contents colons kind) :
    classifyBraces contents = kind := by
  have hcolons := h.keySeparators_eq
  cases h with
  | empty => exact classifyBraces_eq_dictDisplay (.inl rfl)
  | items hitems =>
    obtain ⟨first, rest, owned, others, rfl, rfl, hitem⟩ := hitems.exists_first
    refine classifyBraces_eq_dictDisplay (.inr ?_)
    cases hitem with
    | pair =>
      right
      rw [hcolons]
      exact List.cons_ne_nil _ _
    | unpack hstars => exact .inl hstars
  | elements helements =>
    obtain ⟨first, rest, owned, others, rfl, -, helement⟩ := helements.exists_first
    cases helement with
    | expression hfirst => exact classifyBraces_eq_setDisplay hfirst hcolons
  | itemLoop =>
    refine classifyBraces_eq_dictDisplay (.inr (.inr ?_))
    rw [hcolons]
    exact List.cons_ne_nil _ _
  | elementLoop helement =>
    cases helement with
    | expression hfirst => exact classifyBraces_eq_setDisplay hfirst hcolons

end IsDisplay

/-- Dictionaries and sets are told apart whatever functions they hold, and the colons that are found
are those between keys and values. -/
theorem kind_of_isDisplay (h : IsDisplay contents colons kind) :
    keySeparators contents = colons ∧
      (∀ dialect outermost siblings, classify dialect outermost "\x7b" siblings contents = kind) ∧
      ∀ dialect text tree, buildTree dialect text = .ok tree → ∀ group ∈ tree.postOrder,
        group.bracket? = some "\x7b" → group.contents = contents → group.kind? = some kind := by
  have hkind : ∀ dialect outermost siblings,
      classify dialect outermost "\x7b" siblings contents = kind :=
    fun _ _ _ => h.classifyBraces_eq
  refine ⟨h.keySeparators_eq, hkind, ?_⟩
  intro dialect text tree htree group hgroup hbracket hcontents
  obtain ⟨⟨outermost, siblings, hfits⟩, -⟩ := fitsThroughout_of_buildTree htree group hgroup
  rw [hfits _ hbracket, hcontents, hkind]

theorem exists_cons_of_any_head? {check : Node → Bool} (h : nodes.head?.any check = true) :
    ∃ first rest, nodes = first :: rest ∧ check first = true := by
  cases nodes with
  | nil => cases h
  | cons first rest => exact ⟨first, rest, rfl, h⟩

/-- A dictionary with a function that has a function among its defaults. -/
theorem kind_of_isDisplay_functions :
    ∃ tree group colon,
      buildTree ⟨false, false⟩ "\x7ba: lambda x=lambda: 1, y: x\x7d\n".toList = .ok tree ∧
      group ∈ tree.postOrder ∧ colon.start = ⟨1, 2⟩ ∧ keySeparators group.contents = [colon] ∧
      group.kind? = some .dictDisplay := by
  obtain ⟨tree, htree, hcheck⟩ : ∃ tree,
      buildTree ⟨false, false⟩ "\x7ba: lambda x=lambda: 1, y: x\x7d\n".toList = .ok tree ∧
        decide (∃ group ∈ tree.postOrder, group.bracket? = some "\x7b" ∧
          Phrase false (group.contents.take 1) ∧
          ((group.contents.drop 1).head?.any fun colon => colon.isOp ":" && colon.start == ⟨1, 2⟩) =
          true ∧ Phrase false (group.contents.drop 1).tail) = true :=
    exists_of_any_toOption (by decide +kernel)
  obtain ⟨group, hgroup, hbracket, hkey, hmiddle, hvalue⟩ := of_decide_eq_true hcheck
  obtain ⟨colon, value, hdrop, hmiddle⟩ := exists_cons_of_any_head? hmiddle
  obtain ⟨hcolon, hstart⟩ := (Bool.and_eq_true _ _).mp hmiddle
  have hdisplay : IsDisplay group.contents [colon] .dictDisplay := by
    rw [hdrop, List.tail_cons] at hvalue
    rw [← List.take_append_drop 1 group.contents, hdrop]
    exact .items (.last (IsItem.pair hkey hcolon hvalue))
  obtain ⟨hcolons, -, hkind⟩ := kind_of_isDisplay hdisplay
  exact ⟨tree, group, colon, htree, hgroup, beq_iff_eq.mp hstart, hcolons,
    hkind _ _ _ htree group hgroup hbracket rfl⟩

end Displays

/-- What stands before a group closes an expression, so that brackets belong to it. The nearest node
stands first. -/
def followsExpression (dialect : Dialect) (outermost : Bool) (siblings : List Node) : Bool :=
  siblings.head?.any (Node.closesExpression dialect (outermost && siblings.length == 1))

/-- One expression, maybe with the clauses of a generator after it. -/
def IsSingle (contents : List Node) : Prop :=
  ∃ expression clauses, contents = expression ++ clauses ∧ Phrase false expression ∧
    IsClauses clauses

/-- Some construct that starts with one word and has a list up to another has a comma in its
list. -/
def OwnsComma (starts ends : Node → Bool) (nodes : List Node) : Prop :=
  ∃ before first listed last after, nodes = before ++ first :: listed ++ last :: after ∧
    starts first = true ∧
    Phrase true listed ∧ ends last = true ∧ ∃ comma ∈ listed, comma.isOp "," = true

/-- A function has a comma between its parameters, or a loop between its targets. -/
def HasInnerComma (nodes : List Node) : Prop :=
  OwnsComma (·.isKeyword "lambda") (·.isOp ":") nodes ∨
    OwnsComma (·.isKeyword "for") (·.isKeyword "in") nodes

section InnerSeparators

variable {starts ends : Node → Bool} {nodes contents : List Node}

theorem OwnsComma.surround (h : OwnsComma starts ends nodes) (earlier later : List Node) :
    OwnsComma starts ends (earlier ++ nodes ++ later) := by
  obtain ⟨before, first, listed, last, after, rfl, hstarts⟩ := h
  exact ⟨earlier ++ before, first, listed, last, after ++ later, by simp, hstarts⟩

theorem OwnsComma.exists_comma (h : OwnsComma starts ends nodes) :
    ∃ comma ∈ nodes, comma.isOp "," = true := by
  obtain ⟨before, first, listed, last, after, rfl, -, -, -, comma, hmem, hcomma⟩ := h
  exact ⟨comma, by simp [hmem], hcomma⟩

theorem HasInnerComma.surround (h : HasInnerComma nodes) (earlier later : List Node) :
    HasInnerComma (earlier ++ nodes ++ later) :=
  h.imp (·.surround earlier later) (·.surround earlier later)

theorem Phrase.hasInnerComma {listed : Bool} (h : Phrase listed nodes) (hlisted : listed = false)
    {comma : Node} (hmem : comma ∈ nodes) (hcomma : comma.isOp "," = true) :
    HasInnerComma nodes := by
  induction h with
  | nil => cases hmem
  | @inert _ node rest hnode _ ih =>
    obtain rfl | hmem := List.mem_cons.mp hmem
    · rw [hnode.1] at hcomma
      cases hcomma
    · simpa using (ih hlisted hmem).surround [node] []
  | @function _ word colon parameters body hword hparameters hcolon _ _ ih =>
    rw [List.cons_append, List.mem_cons, List.mem_append, List.mem_cons] at hmem
    obtain rfl | hmem | rfl | hmem := hmem
    · rw [Node.isOp_eq_false_of_isKeyword hword] at hcomma
      cases hcomma
    · exact .inl ⟨[], word, parameters, colon, body, rfl, hword, hparameters, hcolon, comma,
        hmem, hcomma⟩
    · rw [Node.isOp_eq_false_of_isOp hcolon (by decide)] at hcomma
      cases hcomma
    · simpa using (ih hlisted hmem).surround (word :: parameters ++ [colon]) []
  | comma => cases hlisted

theorem IsClauses.hasInnerComma (h : IsClauses nodes) {comma : Node} (hmem : comma ∈ nodes)
    (hcomma : comma.isOp "," = true) : HasInnerComma nodes := by
  -- The words of the clauses are no commas, so the comma is in one of the parts between them.
  have hkeyword : ∀ {node text}, node.isKeyword text = true → comma ≠ node := by
    rintro node text hnode rfl
    rw [Node.isOp_eq_false_of_isKeyword hnode] at hcomma
    cases hcomma
  induction h with
  | nil => cases hmem
  | @loop word preposition targets source rest hword htargets hpreposition hsource _ ih =>
    simp only [List.cons_append, List.mem_cons, List.mem_append, hkeyword hword,
      hkeyword hpreposition, false_or] at hmem
    obtain (hmem | hmem) | hmem := hmem
    · exact .inr ⟨[], word, targets, preposition, source ++ rest, by simp, hword, htargets,
        hpreposition, comma, hmem, hcomma⟩
    · simpa using (hsource.hasInnerComma rfl hmem hcomma).surround
        (word :: targets ++ [preposition]) rest
    · simpa using (ih hmem).surround (word :: targets ++ preposition :: source) []
  | @async word rest hword _ ih =>
    simp only [List.mem_cons, hkeyword hword, false_or] at hmem
    simpa using (ih hmem).surround [word] []
  | @condition word test rest hword htest _ ih =>
    simp only [List.cons_append, List.mem_cons, List.mem_append, hkeyword hword, false_or] at hmem
    obtain hmem | hmem := hmem
    · simpa using (htest.hasInnerComma rfl hmem hcomma).surround [word] rest
    · simpa using (ih hmem).surround (word :: test) []

theorem Phrase.isSingle (h : Phrase false contents) : IsSingle contents :=
  ⟨contents, [], (List.append_nil contents).symm, h, .nil⟩

theorem IsSingle.any_comma_iff (h : IsSingle contents) :
    contents.any (·.isOp ",") = true ↔ HasInnerComma contents := by
  rw [List.any_eq_true]
  constructor
  · rintro ⟨comma, hmem, hcomma⟩
    obtain ⟨expression, clauses, rfl, hexpression, hclauses⟩ := h
    obtain hmem | hmem := List.mem_append.mp hmem
    · exact (hexpression.hasInnerComma rfl hmem hcomma).surround [] clauses
    · simpa using (hclauses.hasInnerComma hmem hcomma).surround expression []
  · rintro (howns | howns)
    · exact howns.exists_comma
    · exact howns.exists_comma

theorem Phrase.any_colon_iff {listed : Bool} (h : Phrase listed contents) :
    contents.any (·.isOp ":") = true ↔ ∃ node ∈ contents, node.isKeyword "lambda" = true := by
  rw [List.any_eq_true]
  induction h with
  | nil => simp
  | inert hnode _ ih => simpa [hnode.2.1, hnode.2.2] using ih
  | @function _ word colon _ _ hword _ hcolon =>
    exact ⟨fun _ => ⟨word, by simp, hword⟩, fun _ => ⟨colon, by simp, hcolon⟩⟩
  | comma hcomma _ ih =>
    have hcolon := Node.isOp_eq_false_of_isOp hcomma (show "," ≠ ":" by decide)
    simpa [hcolon, Node.isKeyword_eq_false_of_isOp hcomma] using ih

theorem classify_round {dialect : Dialect} {outermost : Bool} {siblings : List Node}
    (h : followsExpression dialect outermost siblings = false) (contents : List Node) :
    classify dialect outermost "(" siblings contents =
      if contents.any (·.isOp ",") = true then .tupleDisplay else .parenthesized := by
  have hround : classify dialect outermost "(" siblings contents =
      classifyRound (followsExpression dialect outermost siblings) siblings contents := rfl
  rw [hround, h]
  rfl

theorem classify_square {dialect : Dialect} {outermost : Bool} {siblings : List Node}
    (h : followsExpression dialect outermost siblings = true) (contents : List Node) :
    classify dialect outermost "[" siblings contents =
      if contents.any (·.isOp ":") = true then .slice else .subscript := by
  have hsquare : classify dialect outermost "[" siblings contents =
      classifySquare (followsExpression dialect outermost siblings) contents := rfl
  rw [hsquare, h]
  rfl

/-- The separators of inner constructs count. One expression in parentheses is taken for a tuple
just when a function in it has a comma among its parameters or a loop one among its targets, and an
index for a slice just when it holds a function. -/
theorem classify_of_innerSeparators (dialect : Dialect) (outermost : Bool)
    (siblings contents : List Node) :
    (followsExpression dialect outermost siblings = false → IsSingle contents →
      (classify dialect outermost "(" siblings contents = .tupleDisplay ↔ HasInnerComma contents) ∧
        (classify dialect outermost "(" siblings contents = .parenthesized ↔
          ¬HasInnerComma contents)) ∧
      (followsExpression dialect outermost siblings = true → Phrase true contents →
        (classify dialect outermost "[" siblings contents = .slice ↔
            ∃ node ∈ contents, node.isKeyword "lambda" = true) ∧
          (classify dialect outermost "[" siblings contents = .subscript ↔
            ¬∃ node ∈ contents, node.isKeyword "lambda" = true)) := by
  constructor
  · intro hfollows hsingle
    rw [classify_round hfollows, ← hsingle.any_comma_iff]
    split
    · next hcomma => simp [hcomma]
    · next hcomma => simp [hcomma]
  · intro hfollows hphrase
    rw [classify_square hfollows, ← hphrase.any_colon_iff]
    split
    · next hcolon => simp [hcolon]
    · next hcolon => simp [hcolon]

theorem exists_parts_of_any {tree : Node} {check : Node → Node → Node → Bool}
    (h : (tree.postOrder.any fun statement => statement.parts.head?.any fun round =>
      statement.parts.tail.head?.any fun square => check statement round square) = true) :
    ∃ statement ∈ tree.postOrder, ∃ round square later, statement.parts = round :: square :: later ∧
      check statement round square = true := by
  obtain ⟨statement, hstatement, h⟩ := List.any_eq_true.mp h
  obtain ⟨round, rest, hparts, h⟩ := exists_cons_of_any_head? h
  rw [hparts, List.tail_cons] at h
  obtain ⟨square, later, rfl, h⟩ := exists_cons_of_any_head? h
  exact ⟨statement, hstatement, round, square, later, hparts, h⟩

/-- A function with one parameter, indexed by a pair. -/
theorem classify_of_innerSeparators_plain :
    ∃ tree statement round square later,
      buildTree ⟨false, false⟩ "(lambda x: x)[a, b]\n".toList = .ok tree ∧
      statement ∈ tree.postOrder ∧ statement.parts = round :: square :: later ∧
      IsSingle round.contents ∧ ¬HasInnerComma round.contents ∧
      Phrase true square.contents ∧ ¬∃ node ∈ square.contents, node.isKeyword "lambda" = true := by
  obtain ⟨tree, htree, hcheck⟩ : ∃ tree,
    buildTree ⟨false, false⟩ "(lambda x: x)[a, b]\n".toList = .ok tree ∧
      (tree.postOrder.any fun statement => statement.parts.head?.any fun round =>
        statement.parts.tail.head?.any fun square =>
          decide (Phrase false round.contents ∧
            classify ⟨false, false⟩ true "(" [] round.contents = .parenthesized ∧
            followsExpression ⟨false, false⟩ true [round] = true ∧ Phrase true square.contents ∧
            classify ⟨false, false⟩ true "[" [round] square.contents = .subscript)) = true :=
    exists_of_any_toOption (by decide +kernel)
  obtain ⟨statement, hstatement, round, square, later, hparts, hcheck⟩ := exists_parts_of_any hcheck
  obtain ⟨hround, hkind, hfollows, hsquare, hindex⟩ := of_decide_eq_true hcheck
  have hsingle := hround.isSingle
  have hinner :=
    ((classify_of_innerSeparators ⟨false, false⟩ true [] round.contents).1 rfl hsingle).2.mp hkind
  have hlambda :=
    ((classify_of_innerSeparators ⟨false, false⟩ true [round] square.contents).2 hfollows
      hsquare).2.mp hindex
  exact ⟨tree, statement, round, square, later, htree, hstatement, hparts, hsingle, hinner,
    hsquare, hlambda⟩

/-- The commas and colons of functions make a tuple of one expression and a slice of an index. -/
theorem tuple_and_slice_of_lambda :
    ∃ tree statement round square later,
      buildTree ⟨false, false⟩ "(lambda x, y: x)[lambda: 0]\n".toList = .ok tree ∧
      statement ∈ tree.postOrder ∧ statement.kind? = some .statement ∧
      statement.parts = round :: square :: later ∧
      (round.bracket? = some "(" ∧ followsExpression ⟨false, false⟩ true [] = false ∧
        IsSingle round.contents ∧ round.kind? = some .tupleDisplay) ∧
      square.bracket? = some "[" ∧ followsExpression ⟨false, false⟩ true [round] = true ∧
      Phrase true square.contents ∧ square.kind? = some .slice := by
  obtain ⟨tree, htree, hcheck⟩ : ∃ tree,
      buildTree ⟨false, false⟩ "(lambda x, y: x)[lambda: 0]\n".toList = .ok tree ∧
        (tree.postOrder.any fun statement => statement.parts.head?.any fun round =>
          statement.parts.tail.head?.any fun square =>
            decide (statement.kind? = some .statement ∧
              (round.bracket? = some "(" ∧ Phrase false round.contents ∧
                round.kind? = some .tupleDisplay) ∧
              square.bracket? = some "[" ∧ followsExpression ⟨false, false⟩ true [round] = true ∧
              Phrase true square.contents ∧ square.kind? = some .slice)) = true :=
    exists_of_any_toOption (by decide +kernel)
  obtain ⟨statement, hstatement, round, square, later, hparts, hcheck⟩ := exists_parts_of_any hcheck
  obtain ⟨hkind, ⟨hopening, hround, htuple⟩, hsquare⟩ := of_decide_eq_true hcheck
  exact ⟨tree, statement, round, square, later, htree, hstatement, hkind, hparts,
    ⟨hopening, rfl, hround.isSingle, htuple⟩, hsquare⟩

end InnerSeparators

end PythonLint
