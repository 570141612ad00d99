import JavaLint.Proofs.Rule.RepeatedImports
import JavaLint.Proofs.Syntax.Spans
import JavaLint.Proofs.Text.Encoding
import JavaLint.Proofs.Text.Words

/-!
# White space and comments in an import

The identifiers of an import and its star are nodes of the tree, so white space and comments between them
change nothing. The keyword `static` is looked for in the text in front of the name, and there a comment can
hide it or take its place: it is found if it stands between blanks, or if some comment holds it as a word.

- `TokenTree`, `Concrete.tokens`: a tree without white space and comments
- `Piece`, `IsImport`: what stands in front of the name of an import
- `hasWordAfter_pieces_iff`: where the keyword is found
- `map_import?`: what the tokens tell
- `key?_spacing`: what the key of an import depends on, and when it is right
-/

namespace JavaLint

/-! ## Trees without comments -/

/-- A tree of which only the tokens are left: the nodes without children, with their bytes, and what they
    make up. -/
structure TokenTree where
  kind : String
  field : Option String
  named : Bool
  text : Bytes
  children : List TokenTree
  deriving Repr

namespace Concrete

mutual

/-- The tokens of a tree. White space between them is in no node, and comments are left out. -/
def tokens (source : Bytes) : Concrete → TokenTree
  | ⟨kind, field, named, _, _, span, children⟩ =>
    let text := (source.drop span.startByte).take (span.endByte - span.startByte)
    ⟨kind, field, named, if children.isEmpty then text else [], tokensIn source children⟩

/-- The tokens of a list of trees, without those that are comments. -/
def tokensIn (source : Bytes) : List Concrete → List TokenTree
  | [] => []
  | c :: rest =>
    if Node.commentKinds.contains c.kind then tokensIn source rest
    else c.tokens source :: tokensIn source rest

end

end Concrete

namespace TokenTree

/-- The tree is one that rules look at. -/
def isModelled (t : TokenTree) : Bool :=
  t.named || t.field.isSome

mutual

/-- The texts of the identifiers in a tree. -/
def identifiers : TokenTree → List String
  | ⟨kind, _, _, text, children⟩ =>
    (if kind == "identifier" then [Utf8.decodeReplacing text] else []) ++ identifiersIn children

/-- The texts of the identifiers in a list of trees. -/
def identifiersIn : List TokenTree → List String
  | [] => []
  | t :: rest => (if t.isModelled then t.identifiers else []) ++ identifiersIn rest

end

/-- The identifiers below a node are those of the children that rules look at. -/
private theorem identifiersIn_eq (trees : List TokenTree) :
    identifiersIn trees = (trees.filter isModelled).flatMap identifiers := by
  induction trees with
  | nil => rfl
  | cons t rest ih =>
    rw [identifiersIn, ih, List.filter_cons]
    split <;> rfl

end TokenTree

namespace DuplicateImport

/-- Every identifier in the tree is a token. -/
def HasIdentifierTokens (c : Concrete) : Prop :=
  ∀ n ∈ c.walk, n.kind = "identifier" → n.children.isEmpty = true

/-- The identifiers below a child are tokens too. -/
private theorem HasIdentifierTokens.of_mem {c child : Concrete} (h : HasIdentifierTokens c)
    (hchild : child ∈ c.children) : HasIdentifierTokens child := by
  intro n hn
  apply h n
  rw [Concrete.walk_eq, Concrete.walkAll_eq_flatMap]
  exact List.mem_cons_of_mem _ (List.mem_flatMap.2 ⟨child, hchild, hn⟩)

/-- The identifiers of a node: its own text if it is one, and those of its children. -/
private theorem identifiers_eq (source : Bytes) (n : Node) :
    identifiers source n =
      (if n.kind == "identifier" then [n.text source] else []) ++ n.children.flatMap (identifiers source) := by
  rw [identifiers, Node.walk_eq, Node.walkAll_eq_flatMap, List.filter_cons, List.filter_flatMap]
  -- the identifiers below the node, child by child
  have hchildren : (n.children.flatMap fun c => c.walk.filter (·.kind == "identifier")).map (·.text source) =
      n.children.flatMap (identifiers source) := List.map_flatMap
  split
  · rw [List.map_cons, hchildren]
    rfl
  · exact hchildren

/-- A node that rules look at and a tree of tokens are of the same kind and have the same identifiers. -/
structure Agrees (source : Bytes) (n : Node) (t : TokenTree) : Prop where
  kind : n.kind = t.kind
  identifiers : DuplicateImport.identifiers source n = t.identifiers

/-- The children that rules look at have the tokens of the list, without those that are left out. -/
private theorem agrees_ofConcreteList {source : Bytes} {children : List Concrete}
    (h : ∀ c ∈ children, ∀ role place, Agrees source (Node.ofConcreteAt role place c) (c.tokens source))
    (place : List Nat) (index : Nat) :
    List.Forall₂ (Agrees source) (Node.ofConcreteList place index children)
      ((Concrete.tokensIn source children).filter TokenTree.isModelled) := by
  induction children generalizing index with
  | nil => exact .nil
  | cons c rest ih =>
    obtain ⟨hc, hrest⟩ := List.forall_mem_cons.1 h
    have hmodelled : (c.tokens source).isModelled = (c.named || c.field.isSome) := by
      cases c
      rfl
    rw [Node.ofConcreteList, Concrete.tokensIn, Node.isModelled]
    cases hcomment : Node.commentKinds.contains c.kind with
    -- a comment is in neither list
    | true =>
      simp only [Bool.not_true, Bool.and_false, Bool.false_eq_true, if_false, if_true]
      exact ih hrest index
    | false =>
      -- any other node is in both or in none
      simp only [Bool.not_false, Bool.and_true, Bool.false_eq_true, if_false, List.filter_cons, hmodelled]
      split
      · exact .cons (hc _ _) (ih hrest _)
      · exact ih hrest index

/-- The tokens of a declaration determine the kinds and identifiers of its nodes. -/
private theorem agrees_ofConcreteAt {source : Bytes} {c : Concrete} (h : HasIdentifierTokens c) (role : Option String)
    (place : List Nat) : Agrees source (Node.ofConcreteAt role place c) (c.tokens source) := by
  induction c using Concrete.induction generalizing role place with
  | step c ih =>
    have hchildren := agrees_ofConcreteList (fun child hchild role place =>
      ih child hchild (h.of_mem hchild) role place) place 0
    have hself := h c (by rw [Concrete.walk_eq]; exact List.mem_cons_self)
    obtain ⟨kind, field, named, missing, hasError, span, children⟩ := c
    refine ⟨by rw [Node.ofConcreteAt, Concrete.tokens], ?_⟩
    rw [identifiers_eq, Node.ofConcreteAt, Concrete.tokens, TokenTree.identifiers, TokenTree.identifiersIn_eq]
    -- nodes that agree one by one have the same identifiers together
    have hflat : ∀ {nodes : List Node} {trees : List TokenTree}, List.Forall₂ (Agrees source) nodes trees →
        nodes.flatMap (identifiers source) = trees.flatMap TokenTree.identifiers := by
      intro nodes trees hagree
      induction hagree with
      | nil => rfl
      | cons hfirst _ ihrest => rw [List.flatMap_cons, List.flatMap_cons, hfirst.identifiers, ihrest]
    dsimp only
    rw [hflat hchildren]
    congr 1
    -- only a token has a text, and an identifier is one
    split
    · next hkind =>
      rw [if_pos (hself (by simpa using hkind))]
      rfl
    · rfl

/-! ## In front of the name -/

/-- A part of the text in front of the name of an import: a blank, a comment of some kind, or a keyword, whose
    kind is the keyword itself. -/
inductive Piece where
  | blank (c : Char)
  | comment (kind : String) (text : List Char)
  | keyword (text : String)
  deriving DecidableEq, Repr

namespace Piece

/-- The characters of a piece. -/
def text : Piece → List Char
  | .blank c => [c]
  | .comment _ text => text
  | .keyword text => text.toList

/-- The kind of the node that a piece has, none for a blank. -/
def kind? : Piece → Option String
  | .blank _ => none
  | .comment kind _ => some kind
  | .keyword text => some text

/-- The keyword of a static import. -/
def static : Piece := .keyword "static"

/-- The piece is a comment that holds the word `static`, with a blank before it, and behind it one or the end
    of the comment. -/
def Mentions : Piece → Prop
  | .comment _ text => Text.HasWordAfter false "static".toList text
  | _ => False

/-- A comment mentions the keyword if it holds it as a word. -/
private theorem mentions_comment {kind : String} {text : List Char} :
    (comment kind text).Mentions ↔ Text.HasWordAfter false "static".toList text := Iff.rfl

/-- A blank is no mention. -/
private theorem not_mentions_blank (c : Char) : ¬ (blank c).Mentions := id

/-- The keyword itself is no mention. -/
private theorem not_mentions_keyword (text : String) : ¬ (keyword text).Mentions := id

end Piece

/-- The text is a comment between a slash with a star and a star with a slash. -/
def IsBlockComment (text : List Char) : Prop :=
  ∃ body, text = '/' :: '*' :: (body ++ ['*', '/'])

/-- The text is a comment up to the end of a line. -/
def IsLineComment (text : List Char) : Prop :=
  ∃ body, text = '/' :: '/' :: body

/-- The next piece is a blank, or there is none. -/
def IsEnded (pieces : List Piece) : Prop :=
  ∀ p ∈ pieces.head?, ∃ c, p = .blank c

/-- The pieces are what they say: blanks are blank, and comments are comments. A comment up to the end of a line
    has that end behind it. -/
def IsLaidOut : List Piece → Prop
  | [] => True
  | .blank c :: rest => Text.isBlank c = true ∧ IsLaidOut rest
  | .keyword text :: rest => (text = "import" ∨ text = "static") ∧ IsLaidOut rest
  | .comment kind text :: rest =>
    kind ∈ Node.commentKinds ∧ (IsBlockComment text ∨ IsLineComment text ∧ ∃ c after, rest = .blank c :: after) ∧
      IsLaidOut rest

/-- The keyword stands at the start of the pieces, and what is behind it is a blank or nothing. -/
def StartsApart (pieces : List Piece) : Prop :=
  ∃ after, pieces = .static :: after ∧ IsEnded after

/-- The keyword stands between blanks. -/
def IsApart (pieces : List Piece) : Prop :=
  ∃ before c after, pieces = before ++ .blank c :: after ∧ StartsApart after

/-- The keyword stands between blanks behind the first piece, or right after it if this is a blank. -/
private theorem isApart_cons {p : Piece} {pieces : List Piece} :
    IsApart (p :: pieces) ↔ (∃ c, p = .blank c) ∧ StartsApart pieces ∨ IsApart pieces := by
  constructor
  · rintro ⟨before, c, after, hsplit, hstart⟩
    -- the blank is the first piece, or stands in the rest
    cases before with
    | nil =>
      obtain ⟨rfl, rfl⟩ := List.cons.inj hsplit
      exact .inl ⟨⟨c, rfl⟩, hstart⟩
    | cons q before =>
      obtain ⟨rfl, rfl⟩ := List.cons.inj hsplit
      exact .inr ⟨before, c, after, rfl, hstart⟩
  · rintro (⟨⟨c, rfl⟩, hstart⟩ | ⟨before, c, after, rfl, hstart⟩)
    · exact ⟨[], c, pieces, rfl, hstart⟩
    · exact ⟨p :: before, c, after, rfl, hstart⟩

/-- The keyword is a word. -/
private theorem isWord_static : Text.IsWord "static".toList :=
  ⟨by decide, by simp [Text.isBlank]⟩

/-- What comes first in the text shows whether a blank comes first among the pieces. -/
private theorem isEnded_iff {pieces : List Piece} (h : IsLaidOut pieces) :
    (∀ c ∈ (pieces.flatMap Piece.text).head?, Text.isBlank c = true) ↔ IsEnded pieces := by
  cases pieces with
  | nil => simp [IsEnded]
  | cons p rest =>
    have hended : IsEnded (p :: rest) ↔ ∃ c, p = .blank c := by simp [IsEnded]
    rw [hended, List.flatMap_cons]
    cases p with
    | blank c => simpa [Piece.text] using h.1
    -- keywords and comments start with a character that can be seen
    | keyword text =>
      rcases h.1 with rfl | rfl <;> simp [Piece.text, Text.isBlank]
    | comment kind text =>
      rcases h.2.1 with ⟨body, rfl⟩ | ⟨⟨body, rfl⟩, -⟩ <;> simp [Piece.text, Text.isBlank]

/-- A comment is framed by slashes, or by a slash and the end of the line. -/
private theorem hasWordAfter_comment {isFree : Bool} {kind : String} {text : List Char} {rest : List Piece}
    (h : IsLaidOut (.comment kind text :: rest)) :
    Text.HasWordAfter isFree "static".toList (text ++ rest.flatMap Piece.text) ↔
      Text.HasWordAfter false "static".toList text ∨
        Text.HasWordAfter false "static".toList (rest.flatMap Piece.text) := by
  obtain ⟨-, hcomment, hrest⟩ := h
  -- so no word reaches over either end of the comment
  refine Text.hasWordAfter_append_framed isWord_static ?_ ?_
  · refine ⟨'/', ?_, by decide⟩
    rcases hcomment with ⟨body, rfl⟩ | ⟨⟨body, rfl⟩, -⟩ <;> rfl
  · rcases hcomment with ⟨body, rfl⟩ | ⟨-, c, after, rfl⟩
    · refine .inl ⟨'/', ?_, by decide, by decide⟩
      rw [← List.cons_append, ← List.cons_append, List.getLast?_append_of_ne_nil _ (by decide)]
      rfl
    · exact .inr ⟨c, rfl, hrest.1⟩

/-- A keyword is a word of its own or the beginning of one. -/
private theorem hasWordAfter_keyword {isFree : Bool} {text : String} {rest : List Piece}
    (h : IsLaidOut (.keyword text :: rest)) :
    Text.HasWordAfter isFree "static".toList (text.toList ++ rest.flatMap Piece.text) ↔
      Text.HasWordAfter false "static".toList (rest.flatMap Piece.text) ∨
        isFree = true ∧ StartsApart (.keyword text :: rest) := by
  obtain ⟨htext, hrest⟩ := h
  have hword : text.toList ≠ [] ∧ ∀ c ∈ text.toList, Text.isBlank c = false := by
    rcases htext with rfl | rfl <;> simp [Text.isBlank]
  rw [Text.hasWordAfter_append hword.1 hword.2]
  refine or_congr_right (and_congr_right fun _ => ?_)
  rcases htext with rfl | rfl
  · -- the other keyword starts with another letter
    constructor
    · rintro ⟨after, heq, -⟩
      exact absurd (List.cons.inj heq).1 (by decide)
    · rintro ⟨after, heq, -⟩
      exact absurd (Piece.keyword.inj (List.cons.inj heq).1) (by decide)
  · -- this is the keyword, unless the word goes on behind it
    simp only [List.append_cancel_left_eq, exists_eq_left', isEnded_iff hrest]
    constructor
    · intro hended
      exact ⟨rest, rfl, hended⟩
    · rintro ⟨after, heq, hended⟩
      obtain ⟨-, rfl⟩ := List.cons.inj heq
      exact hended

/-- The keyword is found where it stands apart or where a comment mentions it. At the start of the pieces it
    stands apart only if nothing is in front of them. -/
theorem hasWordAfter_pieces_iff {isFree : Bool} {pieces : List Piece} (h : IsLaidOut pieces) :
    Text.HasWordAfter isFree "static".toList (pieces.flatMap Piece.text) ↔
      (∃ p ∈ pieces, p.Mentions) ∨ IsApart pieces ∨ isFree = true ∧ StartsApart pieces := by
  -- by the first piece: a blank makes the start of the others free, a keyword or a comment does not
  induction pieces generalizing isFree with
  | nil =>
    have hword : ¬ Text.HasWordAfter isFree "static".toList [] := by
      rintro ⟨before, after, htext, -⟩
      exact absurd (congrArg List.length htext) (by simp)
    simpa [IsApart, StartsApart] using hword
  | cons p rest ih =>
    rw [List.flatMap_cons, List.exists_mem_cons_iff, isApart_cons]
    cases p with
    | blank c =>
      have hnot : ¬ StartsApart (.blank c :: rest) := by
        rintro ⟨after, heq, -⟩
        cases heq
      -- a word behind the blank starts afresh
      have hblank : Text.HasWordAfter isFree "static".toList (c :: rest.flatMap Piece.text) ↔
          Text.HasWord "static".toList (rest.flatMap Piece.text) :=
        Text.hasWordAfter_blank_cons isWord_static h.1
      rw [Piece.text, List.singleton_append, hblank, Text.HasWord, ih h.2]
      simp only [Piece.not_mentions_blank, hnot, Piece.blank.injEq, exists_eq', and_false, true_and, false_or,
        or_false]
      exact or_congr_right or_comm
    | keyword text =>
      rw [Piece.text, hasWordAfter_keyword h, ih h.2]
      simp only [Piece.not_mentions_keyword, reduceCtorEq, exists_false, false_and, false_or, or_false,
        Bool.false_eq_true]
      exact or_assoc
    | comment kind text =>
      have hnot : ¬ StartsApart (.comment kind text :: rest) := by
        rintro ⟨after, heq, -⟩
        cases heq
      rw [Piece.text, hasWordAfter_comment h, ih h.2.2]
      simp only [Piece.mentions_comment, hnot, reduceCtorEq, exists_false, false_and, and_false, false_or,
        or_false, Bool.false_eq_true]
      exact or_assoc.symm

/-! ## The key of an import -/

/-- The declaration has the keyword of a static import among its tokens. -/
def HasStatic (c : Concrete) : Prop :=
  ∃ child ∈ c.children, child.kind = "static"

/-- The tree is that of an import whose name comes after the given pieces. -/
structure IsImport (source : Bytes) (c : Concrete) (lead : List Piece) : Prop where
  starts : ∃ rest, lead = .keyword "import" :: rest
  laidOut : IsLaidOut lead
  tokens : HasIdentifierTokens c
  plain : ∀ name ∈ (c.tokens source).identifiers, ∀ x ∈ name.toList, Text.isBlank x = false
  name : ∃ before name after, c.children = before ++ name :: after ∧ name.named = true ∧ name.kind ∈ nameKinds ∧
    before.map (·.kind) = lead.filterMap Piece.kind? ∧ (∀ child ∈ after, child.kind ≠ "static") ∧
    (source.drop c.span.startByte).take (name.span.startByte - c.span.startByte) =
      Utf8.encode (lead.flatMap Piece.text)

/-- The name of a declaration and its star, as far as the tokens tell. -/
def imported? (t : TokenTree) : Option (List String × Bool) :=
  let children := t.children.filter TokenTree.isModelled
  (children.find? fun c => c.kind == "scoped_identifier" || c.kind == "identifier").map fun name =>
    (name.identifiers, children.any (·.kind == "asterisk"))

/-- The first node of a kind has the identifiers of the first tree of that kind. -/
private theorem find?_of_agrees {source : Bytes} {nodes : List Node} {trees : List TokenTree}
    (h : List.Forall₂ (Agrees source) nodes trees) (p : String → Bool) :
    (nodes.find? fun n => p n.kind).map (identifiers source) =
      (trees.find? fun t => p t.kind).map TokenTree.identifiers := by
  induction h with
  | nil => rfl
  | cons hfirst _ ih =>
    rw [List.find?_cons, List.find?_cons, hfirst.kind]
    split
    · rw [Option.map_some, Option.map_some, hfirst.identifiers]
    · exact ih

/-- There is a node of a kind if there is a tree of that kind. -/
private theorem any_of_agrees {source : Bytes} {nodes : List Node} {trees : List TokenTree}
    (h : List.Forall₂ (Agrees source) nodes trees) (p : String → Bool) :
    (nodes.any fun n => p n.kind) = trees.any fun t => p t.kind := by
  induction h with
  | nil => rfl
  | cons hfirst _ ih => rw [List.any_cons, List.any_cons, hfirst.kind, ih]

/-- All but the keyword of an import is in its tokens. -/
theorem map_import? (source : Bytes) {c : Concrete} (h : HasIdentifierTokens c) (role : Option String)
    (place : List Nat) :
    (import? source (Node.ofConcreteAt role place c)).map (fun i => (i.names, i.isWildcard)) =
      imported? (c.tokens source) := by
  have hchildren : List.Forall₂ (Agrees source) (Node.ofConcreteAt role place c).children
      ((c.tokens source).children.filter TokenTree.isModelled) := by
    have hagree : List.Forall₂ (Agrees source) (Node.ofConcreteList place 0 c.children)
        ((Concrete.tokensIn source c.children).filter TokenTree.isModelled) :=
      agrees_ofConcreteList (fun child hchild role place =>
        agrees_ofConcreteAt (h.of_mem hchild) role place) place 0
    cases c
    exact hagree
  -- the name is the first node that can be one, in the tree and among the tokens
  have hname := find?_of_agrees hchildren fun kind => kind == "scoped_identifier" || kind == "identifier"
  have hstar := any_of_agrees hchildren (· == "asterisk")
  rw [import?, imported?, Option.map_map, ← hstar]
  generalize (Node.ofConcreteAt role place c).children.any (·.kind == "asterisk") = star
  -- the star is the same on both sides, and is put beside the name
  have hpair := congrArg (Option.map fun names => (names, star)) hname
  rw [Option.map_map, Option.map_map] at hpair
  exact hpair

/-- The pieces that have a node are comments and keywords. -/
private theorem IsLaidOut.kind_cases {lead : List Piece} (h : IsLaidOut lead) {p : Piece} {kind : String}
    (hp : p ∈ lead) (hkind : p.kind? = some kind) :
    kind ∈ Node.commentKinds ∨ p = .keyword kind ∧ (kind = "import" ∨ kind = "static") := by
  induction lead with
  | nil => exact nomatch hp
  | cons q rest ih =>
    -- a layout asks something of each piece and of what follows it
    have hrest : IsLaidOut rest := by
      cases q with
      | blank c => exact h.2
      | keyword text => exact h.2
      | comment kind text => exact h.2.2
    rcases List.mem_cons.1 hp with rfl | hp
    · cases p with
      | blank c => exact nomatch hkind
      | keyword text =>
        obtain rfl := Option.some.inj hkind
        exact .inr ⟨rfl, h.1⟩
      | comment kind' text =>
        obtain rfl := Option.some.inj hkind
        exact .inl h.1
    · exact ih hrest hp

/-- No comment can be a name. -/
private theorem not_mem_nameKinds : ∀ kind ∈ Node.commentKinds, kind ∉ nameKinds := by
  decide

namespace IsImport

variable {source : Bytes} {c : Concrete} {lead : List Piece}

/-- The token and the piece are the same keyword. -/
private theorem hasStatic_iff (h : IsImport source c lead) : HasStatic c ↔ .static ∈ lead := by
  obtain ⟨before, name, after, hchildren, -, hname, hbefore, hafter, -⟩ := h.name
  constructor
  · rintro ⟨child, hchild, hkind⟩
    rw [hchildren, List.mem_append, List.mem_cons] at hchild
    rcases hchild with hchild | rfl | hchild
    · -- in front of the name the tokens are the pieces with a node
      have hmem : "static" ∈ lead.filterMap Piece.kind? := hkind ▸ hbefore ▸ List.mem_map_of_mem hchild
      obtain ⟨p, hp, hpkind⟩ := List.mem_filterMap.1 hmem
      rcases h.laidOut.kind_cases hp hpkind with hcomment | ⟨rfl, -⟩
      · exact absurd hcomment (by decide)
      · exact hp
    · exact absurd (hkind ▸ hname) (by decide)
    · exact absurd hkind (hafter child hchild)
  · intro hstatic
    have hmem : "static" ∈ before.map (·.kind) := hbefore ▸ List.mem_filterMap.2 ⟨.static, hstatic, rfl⟩
    obtain ⟨child, hchild, hkind⟩ := List.mem_map.1 hmem
    exact ⟨child, hchildren ▸ List.mem_append_left _ hchild, hkind⟩

/-- The keyword is read off the text of the pieces, in which nothing is in front of the other keyword. -/
private theorem isStatic_iff (h : IsImport source c lead) {declaration name : Node}
    (hstart : declaration.span = c.span)
    (htext : (source.drop c.span.startByte).take (name.span.startByte - c.span.startByte) =
      Utf8.encode (lead.flatMap Piece.text)) :
    isStatic source declaration name = true ↔ IsApart lead ∨ ∃ p ∈ lead, p.Mentions := by
  -- the pieces start with the other keyword
  have hnot : ¬ StartsApart lead := by
    obtain ⟨rest, rfl⟩ := h.starts
    rintro ⟨after, heq, -⟩
    exact absurd (Piece.keyword.inj (List.cons.inj heq).1) (by decide)
  -- the bytes in front of the name are those of the pieces
  have hdecode := Utf8.decodeReplacing_of_decode? (Utf8.decode?_eq_ok_iff.2 htext)
  have hchars : (String.ofList (lead.flatMap Piece.text)).toList = lead.flatMap Piece.text := String.toList_ofList
  simp only [isStatic, hstart, hdecode, List.contains_iff_mem]
  rw [Text.mem_words_iff isWord_static, hchars, Text.HasWord, hasWordAfter_pieces_iff h.laidOut]
  simp only [hnot, and_false, or_false]
  exact or_comm

/-- An import has a name: it is the first child that can be one. -/
private theorem exists_import? (h : IsImport source c lead) (role : Option String) (place : List Nat) :
    ∃ i, import? source (Node.ofConcreteAt role place c) = some i ∧
      (i.isStatic = true ↔ IsApart lead ∨ ∃ p ∈ lead, p.Mentions) := by
  obtain ⟨before, name, after, hchildren, hnamed, hkind, hbefore, -, hlead⟩ := h.name
  obtain ⟨hspan, hbelow⟩ := Node.children_ofConcreteAt role place c
  -- no child in front of the name can be one
  have hnone : ∀ n ∈ Node.ofConcreteList place 0 before,
      ¬ (n.kind == "scoped_identifier" || n.kind == "identifier") = true := by
    intro n hn
    obtain ⟨child, hchild, place', rfl⟩ := Node.mem_ofConcreteList hn
    have hmem : child.kind ∈ lead.filterMap Piece.kind? := hbefore ▸ List.mem_map_of_mem hchild
    have hnot : child.kind ∉ nameKinds := by
      obtain ⟨p, hp, hpkind⟩ := List.mem_filterMap.1 hmem
      intro hname
      rcases h.laidOut.kind_cases hp hpkind with hcomment | ⟨-, hkeyword | hkeyword⟩
      · exact not_mem_nameKinds _ hcomment hname
      · exact absurd (hkeyword ▸ hname) (by decide)
      · exact absurd (hkeyword ▸ hname) (by decide)
    cases child
    simpa [Node.ofConcreteAt, nameKinds] using hnot
  -- the name itself is looked at
  have hmodelled : Node.isModelled name = true := by
    have hnot : name.kind ∉ Node.commentKinds := fun hcomment => not_mem_nameKinds _ hcomment hkind
    simp [Node.isModelled, hnamed, hnot]
  -- so the search stops at the name
  have hfind : ∃ place', (Node.ofConcreteAt role place c).children.find?
      (fun c => c.kind == "scoped_identifier" || c.kind == "identifier") =
        some (Node.ofConcreteAt name.field place' name) := by
    refine ⟨place ++ [0 + before.countP Node.isModelled], ?_⟩
    rw [hbelow, hchildren, Node.ofConcreteList_append, Node.ofConcreteList, if_pos hmodelled, List.find?_append,
      List.find?_eq_none.2 hnone, Option.none_or, List.find?_cons_of_pos]
    cases name
    simpa [Node.ofConcreteAt, nameKinds] using hkind
  obtain ⟨place', hfind⟩ := hfind
  refine ⟨_, by rw [import?, hfind, Option.map_some], h.isStatic_iff hspan ?_⟩
  rw [(Node.children_ofConcreteAt name.field place' name).1]
  exact hlead

end IsImport

/-- Comments apart, a tree has the tokens of the kinds its children have. -/
private theorem exists_kind_tokensIn (source : Bytes) {kind : String} (hkind : kind ∉ Node.commentKinds)
    (children : List Concrete) :
    (∃ t ∈ Concrete.tokensIn source children, t.kind = kind) ↔ ∃ c ∈ children, c.kind = kind := by
  induction children with
  | nil => simp [Concrete.tokensIn]
  | cons c rest ih =>
    rw [Concrete.tokensIn, List.exists_mem_cons_iff]
    split
    · next hcomment =>
      -- a comment that is left out is of another kind
      have hne : c.kind ≠ kind := by
        rintro rfl
        exact hkind (List.contains_iff_mem.1 hcomment)
      rw [ih, or_iff_right hne]
    · have hself : (c.tokens source).kind = c.kind := by
        cases c
        rfl
      rw [List.exists_mem_cons_iff, ih, hself]

/-- Declarations with the same tokens both have the keyword or both do not. -/
private theorem hasStatic_iff_of_tokens_eq {source source' : Bytes} {c c' : Concrete}
    (h : c.tokens source = c'.tokens source') : HasStatic c ↔ HasStatic c' := by
  -- whether the keyword is there can be read off the tokens, without the source
  have hchildren : ∀ (source : Bytes) (c : Concrete),
      (c.tokens source).children = Concrete.tokensIn source c.children := by
    intro source c
    cases c
    rfl
  have htokens := congrArg TokenTree.children h
  rw [hchildren, hchildren] at htokens
  rw [HasStatic, ← exists_kind_tokensIn source (by decide), htokens, exists_kind_tokensIn source' (by decide),
    HasStatic]

/-- The names of an import are identifiers of the declaration. -/
private theorem mem_identifiers_of_imported? {t : TokenTree} {names : List String} {star : Bool}
    (h : imported? t = some (names, star)) {name : String} (hname : name ∈ names) : name ∈ t.identifiers := by
  obtain ⟨child, hchild, hpair⟩ := Option.map_eq_some_iff.1 h
  obtain ⟨rfl, -⟩ := Prod.mk.inj hpair
  cases t
  rw [TokenTree.identifiers, TokenTree.identifiersIn_eq]
  exact List.mem_append_right _ (List.mem_flatMap.2 ⟨child, List.mem_of_find?_eq_some hchild, hname⟩)

/-- Only the keyword brings a blank into the key. -/
private theorem Import.startsWith_key_iff {i : Import} (h : ∀ name ∈ i.names, ' ' ∉ name.toList) :
    "static ".toList <+: i.key.toList ↔ i.isStatic = true := by
  constructor
  · intro hinit
    -- the key has a blank, and no name and no star does
    have hblank : ' ' ∈ i.key.toList := hinit.subset (by decide)
    rw [Import.mem_toList_key_iff (by decide) h] at hblank
    rcases hblank with ⟨hstatic, -⟩ | ⟨-, hstar⟩
    · exact hstatic
    · exact absurd hstar (by decide)
  · intro hstatic
    rw [Import.toList_key, if_pos hstatic, List.append_assoc]
    exact List.prefix_append _ _

/-- What is in front of the name shows whether the import is static: where a comment mentions the keyword it is
    there, and where it is there and no comment mentions it, it stands between blanks. -/
structure IsClear (lead : List Piece) : Prop where
  mem_of_mentions : (∃ p ∈ lead, p.Mentions) → .static ∈ lead
  isApart : .static ∈ lead → (∀ p ∈ lead, ¬ p.Mentions) → IsApart lead

/-- What stands between blanks is there. -/
private theorem IsApart.mem {lead : List Piece} (h : IsApart lead) : .static ∈ lead := by
  obtain ⟨before, c, after, rfl, rest, rfl, -⟩ := h
  simp

/-- The keyword is found exactly where it is, if the pieces are clear. -/
private theorem isClear_iff {lead : List Piece} :
    ((IsApart lead ∨ ∃ p ∈ lead, p.Mentions) ↔ .static ∈ lead) ↔ IsClear lead := by
  constructor
  · intro h
    refine ⟨fun hmentions => h.1 (.inr hmentions), fun hstatic hnone => ?_⟩
    rcases h.2 hstatic with hapart | ⟨p, hp, hmentions⟩
    · exact hapart
    · exact absurd hmentions (hnone p hp)
  · intro h
    constructor
    · rintro (hapart | hmentions)
      · exact hapart.mem
      · exact h.mem_of_mentions hmentions
    · intro hstatic
      -- what is mentioned counts as well as the keyword that stands apart
      by_cases hmentions : ∃ p ∈ lead, p.Mentions
      · exact .inr hmentions
      · exact .inl (h.isApart hstatic fun p hp hp' => hmentions ⟨p, hp, hp'⟩)

/-- Two imports with the same tokens, whatever white space and comments they have. Both have a key. The key says
    that an import is static where the keyword stands between blanks or a comment mentions it. That is right
    exactly if the pieces in front of the name are clear, and the two keys are the same exactly if they are right
    of both imports or of none. -/
theorem key?_spacing {source source' : Bytes} {c c' : Concrete} {lead lead' : List Piece}
    (h : IsImport source c lead) (h' : IsImport source' c' lead') (htokens : c.tokens source = c'.tokens source')
    (role role' : Option String) (place place' : List Nat) :
    ∃ key key', key? source (Node.ofConcreteAt role place c) = some key ∧
      key? source' (Node.ofConcreteAt role' place' c') = some key' ∧
      ("static ".toList <+: key.toList ↔ IsApart lead ∨ ∃ p ∈ lead, p.Mentions) ∧
      (("static ".toList <+: key.toList ↔ HasStatic c) ↔ IsClear lead) ∧
      (key = key' ↔ (IsClear lead ↔ IsClear lead')) := by
  obtain ⟨i, hi, hstatic⟩ := h.exists_import? role place
  obtain ⟨i', hi', hstatic'⟩ := h'.exists_import? role' place'
  -- the names and the stars are in the tokens
  have hpair := map_import? source h.tokens role place
  have hpair' := map_import? source' h'.tokens role' place'
  rw [hi, Option.map_some] at hpair
  rw [hi', Option.map_some, ← htokens, ← hpair] at hpair'
  obtain ⟨hnames, hstar⟩ := Prod.mk.inj (Option.some.inj hpair')
  -- no name has a blank, so the keys show whether they are static
  have hplain : ∀ name ∈ i.names, ' ' ∉ name.toList := by
    intro name hname hblank
    exact absurd (h.plain name (mem_identifiers_of_imported? hpair.symm hname) ' ' hblank) (by decide)
  have hstarts := Import.startsWith_key_iff hplain
  have hstarts' := Import.startsWith_key_iff (hnames ▸ hplain : ∀ name ∈ i'.names, ' ' ∉ name.toList)
  -- the names and the star are the same, so only the keyword can differ
  have hkeys : i.key = i'.key ↔ (i.isStatic = true ↔ i'.isStatic = true) := by
    constructor
    · intro hkey
      rw [← hstarts, hkey, hstarts']
    · intro hflags
      rw [Import.key, Import.key, Bool.eq_iff_iff.2 hflags, hnames, hstar]
  refine ⟨i.key, i'.key, by rw [key?_eq_map_import?, hi]; rfl, by rw [key?_eq_map_import?, hi']; rfl,
    hstarts.trans hstatic, ?_, ?_⟩
  · rw [hstarts, hstatic, h.hasStatic_iff, isClear_iff]
  · -- the keyword is a token, so both have it or none
    have hsame : Piece.static ∈ lead ↔ Piece.static ∈ lead' := by
      rw [← h.hasStatic_iff, ← h'.hasStatic_iff, hasStatic_iff_of_tokens_eq htokens]
    rw [hkeys, hstatic, hstatic', ← isClear_iff, ← isClear_iff, hsame]
    by_cases hmem : Piece.static ∈ lead' <;> simp only [hmem, iff_true, iff_false, not_iff_not]

/-! A few trees of imports, each in a source of its own. -/

/-- A token of some kind. -/
def token (kind : String) (field : Option String) (named : Bool) (startByte endByte : Nat) : Concrete :=
  ⟨kind, field, named, false, false, ⟨startByte, endByte, 0, startByte, 0, endByte⟩, []⟩

/-- The tree of an import, given its tokens in front of the name, what the name is made of and its tokens
    behind the name. -/
def importTree (before : List Concrete) (startByte endByte : Nat) (name after : List Concrete) (stop : Nat) :
    Concrete :=
  ⟨"import_declaration", none, true, false, false, ⟨0, stop, 0, 0, 0, stop⟩,
    before ++ ⟨"scoped_identifier", none, true, false, false, ⟨startByte, endByte, 0, startByte, 0, endByte⟩,
      name⟩ :: after⟩

/-- The tree of `import static a.B;`. -/
def staticTree : Concrete :=
  importTree [token "import" none false 0 6, token "static" none false 7 13] 14 17
    [token "identifier" (some "scope") true 14 15, token "." none false 15 16,
      token "identifier" (some "name") true 16 17]
    [token ";" none false 17 18] 18

/-- The tree of `import/*x*/ static /*y*/a./*z*/B ;`. -/
def commentedTree : Concrete :=
  importTree [token "import" none false 0 6, token "block_comment" none true 6 11, token "static" none false 12 18,
      token "block_comment" none true 19 24] 24 32
    [token "identifier" (some "scope") true 24 25, token "." none false 25 26,
      token "block_comment" none true 26 31, token "identifier" (some "name") true 31 32]
    [token ";" none false 33 34] 34

/-- The tree of `import a.B;`. -/
def plainTree : Concrete :=
  importTree [token "import" none false 0 6] 7 10
    [token "identifier" (some "scope") true 7 8, token "." none false 8 9, token "identifier" (some "name") true 9 10]
    [token ";" none false 10 11] 11

/-- The tree of `import /* static */ a.B;`. -/
def mentioningTree : Concrete :=
  importTree [token "import" none false 0 6, token "block_comment" none true 7 19] 20 23
    [token "identifier" (some "scope") true 20 21, token "." none false 21 22,
      token "identifier" (some "name") true 22 23]
    [token ";" none false 23 24] 24

/-- Comments around the keyword and in the name leave the key of a static import as it is. -/
theorem key?_spacing_commented :
    let source := Utf8.encode "import static a.B;".toList
    let source' := Utf8.encode "import/*x*/ static /*y*/a./*z*/B ;".toList
    let lead : List Piece := [.keyword "import", .blank ' ', .static, .blank ' ']
    let lead' : List Piece := [.keyword "import", .comment "block_comment" "/*x*/".toList, .blank ' ', .static,
      .blank ' ', .comment "block_comment" "/*y*/".toList]
    IsImport source staticTree lead ∧ IsImport source' commentedTree lead' ∧
      staticTree.tokens source = commentedTree.tokens source' ∧ IsClear lead ∧ IsClear lead' ∧
      ∃ key, key? source (Node.ofConcrete staticTree) = some key ∧
        key? source' (Node.ofConcrete commentedTree) = some key ∧ "static ".toList <+: key.toList := by
  intro source source' lead lead'
  have htokens : staticTree.tokens source = commentedTree.tokens source' := rfl
  have hnames : (staticTree.tokens source).identifiers = ["a", "B"] := by decide +kernel
  have hplain : ∀ name ∈ (staticTree.tokens source).identifiers, ∀ x ∈ name.toList, Text.isBlank x = false := by
    rw [hnames]
    simp [Text.isBlank]
  have himport : IsImport source staticTree lead := by
    refine ⟨⟨_, rfl⟩, ⟨.inl rfl, rfl, .inr rfl, rfl, trivial⟩, ?_, hplain, ?_⟩
    · unfold HasIdentifierTokens
      decide +kernel
    · exact ⟨_, _, _, rfl, rfl, by decide, rfl, by decide, by decide +kernel⟩
  have himport' : IsImport source' commentedTree lead' := by
    refine ⟨⟨_, rfl⟩, ⟨.inl rfl, by decide, .inl ⟨['x'], by decide⟩, rfl, .inr rfl, rfl, by decide,
      .inl ⟨['y'], by decide⟩, trivial⟩, ?_, htokens ▸ hplain, ?_⟩
    · unfold HasIdentifierTokens
      decide +kernel
    · exact ⟨_, _, _, rfl, rfl, by decide, rfl, by decide, by decide +kernel⟩
  -- the keyword stands between blanks in both
  have hclear : IsClear lead :=
    ⟨fun _ => by decide, fun _ _ => ⟨lead.take 1, _, _, rfl, _, rfl, by simp [IsEnded]⟩⟩
  have hclear' : IsClear lead' :=
    ⟨fun _ => by decide, fun _ _ => ⟨lead'.take 2, _, _, rfl, _, rfl, by simp [IsEnded]⟩⟩
  obtain ⟨key, key', hkey, hkey', -, hstatic, heq⟩ := key?_spacing himport himport' htokens none none [] []
  obtain rfl := heq.2 (iff_of_true hclear hclear')
  exact ⟨himport, himport', htokens, hclear, hclear', key, hkey, hkey',
    (hstatic.2 hclear).2 ⟨_, List.mem_cons_of_mem _ List.mem_cons_self, rfl⟩⟩

/-- A comment that mentions the keyword makes an import static. -/
theorem key?_mentioned :
    let source := Utf8.encode "import a.B;".toList
    let source' := Utf8.encode "import /* static */ a.B;".toList
    plainTree.tokens source = mentioningTree.tokens source' ∧ ¬ HasStatic mentioningTree ∧
      key? source (Node.ofConcrete plainTree) = some "a.B" ∧
      key? source' (Node.ofConcrete mentioningTree) = some "static a.B" := by
  refine ⟨rfl, ?_, by decide +kernel, by decide +kernel⟩
  unfold HasStatic
  decide

end DuplicateImport

end JavaLint
