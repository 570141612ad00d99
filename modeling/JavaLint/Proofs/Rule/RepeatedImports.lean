import Mathlib.Data.Finset.Card
import JavaLint.Proofs.Rule.Findings
import JavaLint.Proofs.Text.Parts

/-!
# Repeated imports

Import declarations are compared by a text that is put together from what they import. As long as no
identifier holds the characters that this text is put together with, two declarations have the same text
only if they import the same. The rule then reports exactly the declarations that repeat an earlier one.

- `Import`, `import?`: what a declaration imports
- `Import.key_injective`: different imports have different keys
- `map_fst_repeats`: which declarations are found, by their index
- `length_repeats_add_card`: how many are found
- `apply_reportsRepeats`: the rule reports the repeats
-/

namespace JavaLint.DuplicateImport

/-! ## What a declaration imports -/

/-- What a declaration imports: static members or not, under which identifiers, and whether everything below
    them. -/
structure Import where
  isStatic : Bool
  names : List String
  isWildcard : Bool
  deriving DecidableEq, Repr

/-- The identifiers can be told apart in a text that has dots between them, a blank before them and a star
    after them. -/
def Import.IsPlain (i : Import) : Prop :=
  ∀ name ∈ i.names, name ≠ "" ∧ ∀ c ∈ name.toList, c ≠ '.' ∧ c ≠ '*' ∧ Text.isBlank c = false

/-- The canonical form of an import. -/
def Import.key (i : Import) : String :=
  (if i.isStatic then "static " else "") ++ ".".intercalate i.names ++ (if i.isWildcard then ".*" else "")

/-- What a declaration imports, none if it has no name. Its name is the first child that can be one, and it is
    static if the word `static` is among those in front of the name. -/
def import? (source : Bytes) (declaration : Node) : Option Import :=
  (declaration.children.find? fun c => c.kind == "scoped_identifier" || c.kind == "identifier").map fun name =>
    { isStatic := isStatic source declaration name
      names := identifiers source name
      isWildcard := declaration.children.any (·.kind == "asterisk") }

/-- The key that the rule computes is that of the import. -/
theorem key?_eq_map_import? (source : Bytes) (declaration : Node) :
    key? source declaration = (import? source declaration).map Import.key := by
  -- the first child of the right kind is the first one that the search meets
  have hname : (declaration.childrenOfKind nameKinds).head? =
      declaration.children.find? fun c => c.kind == "scoped_identifier" || c.kind == "identifier" := by
    rw [Node.childrenOfKind, List.head?_filter]
    congr 1
    funext c
    rw [Bool.eq_iff_iff]
    simp [nameKinds]
  have hstar : isWildcard declaration = declaration.children.any (·.kind == "asterisk") := by
    rw [isWildcard, Node.childrenOfKind, Bool.eq_iff_iff]
    simp
  rw [key?, import?, hname, hstar, Option.map_map]
  rfl

/-! ## Keys tell imports apart -/

namespace Import

/-- The characters of a key: those of the keyword, of the name and of the star. -/
theorem toList_key (i : Import) :
    i.key.toList = (if i.isStatic then "static ".toList else []) ++ (".".intercalate i.names).toList ++
      (if i.isWildcard then ['.', '*'] else []) := by
  rw [key, String.toList_append, String.toList_append]
  cases i.isStatic <;> cases i.isWildcard <;> rfl

/-- A character that no identifier holds stands in the key only through the parts around them. -/
theorem mem_toList_key_iff {i : Import} {c : Char} (hc : c ≠ '.') (h : ∀ name ∈ i.names, c ∉ name.toList) :
    c ∈ i.key.toList ↔ i.isStatic = true ∧ c ∈ "static ".toList ∨ i.isWildcard = true ∧ c = '*' := by
  -- the dots between the names are the only characters added there
  have hnames : c ∉ (".".intercalate i.names).toList := by
    rw [Text.mem_intercalate rfl hc]
    rintro ⟨name, hname, hmem⟩
    exact h name hname hmem
  rw [toList_key, List.mem_append, List.mem_append, or_iff_left hnames]
  cases i.isStatic <;> cases i.isWildcard <;> simp [hc]

/-- Plain identifiers hold none of the characters that a key is put together with. -/
private theorem IsPlain.not_mem {i : Import} (h : i.IsPlain) {c : Char}
    (hc : c = '.' ∨ c = '*' ∨ Text.isBlank c = true) : ∀ name ∈ i.names, c ∉ name.toList := by
  intro name hname hmem
  obtain ⟨hdot, hstar, hblank⟩ := (h name hname).2 c hmem
  rcases hc with hc | hc | hc
  · exact hdot hc
  · exact hstar hc
  · rw [hblank] at hc
    cases hc

/-- Identifiers that are plain can be read back from the text that joins them. -/
private theorem IsPlain.names_eq {i j : Import} (hi : i.IsPlain) (hj : j.IsPlain)
    (h : (".".intercalate i.names).toList = (".".intercalate j.names).toList) : i.names = j.names := by
  have hsplit : ∀ k : Import, k.IsPlain → k.names ≠ [] →
      (".".intercalate k.names).toList.splitOn '.' = k.names.map String.toList := by
    intro k hk hne
    exact Text.splitOn_intercalate rfl hne (hk.not_mem (.inl rfl))
  -- no identifier is empty, so only the empty list is written as the empty text
  have hempty : ∀ k : Import, k.IsPlain → (".".intercalate k.names).toList = [] → k.names = [] := by
    intro k hk htext
    by_contra hne
    have hparts := hsplit k hk hne
    rw [htext, List.splitOn_nil] at hparts
    obtain ⟨name, hname⟩ := List.exists_mem_of_ne_nil k.names hne
    have hmem : name.toList ∈ [([] : List Char)] := hparts ▸ List.mem_map_of_mem hname
    exact (hk name hname).1 (String.toList_eq_nil_iff.1 (List.mem_singleton.1 hmem))
  by_cases hinil : i.names = []
  · rw [hinil, hempty j hj (by rw [← h, hinil]; rfl)]
  · by_cases hjnil : j.names = []
    · rw [hjnil, hempty i hi (by rw [h, hjnil]; rfl)]
    · have hparts := hsplit i hi hinil
      rw [h, hsplit j hj hjnil] at hparts
      exact (List.map_injective_iff.2 (fun _ _ hab => String.toList_inj.1 hab) hparts).symm

/-- Imports with the same key are the same. -/
theorem key_injective {i j : Import} (hi : i.IsPlain) (hj : j.IsPlain) (h : i.key = j.key) : i = j := by
  -- the blank shows whether an import is static, and the star whether it is a wildcard
  have hblank : ∀ k : Import, k.IsPlain → (' ' ∈ k.key.toList ↔ k.isStatic = true) := by
    intro k hk
    rw [mem_toList_key_iff (by decide) (hk.not_mem (.inr (.inr rfl)))]
    simp
  have hstar : ∀ k : Import, k.IsPlain → ('*' ∈ k.key.toList ↔ k.isWildcard = true) := by
    intro k hk
    rw [mem_toList_key_iff (by decide) (hk.not_mem (.inr (.inl rfl)))]
    simp
  have hstatic : i.isStatic = j.isStatic := by
    rw [Bool.eq_iff_iff, ← hblank i hi, ← hblank j hj, h]
  have hwildcard : i.isWildcard = j.isWildcard := by
    rw [Bool.eq_iff_iff, ← hstar i hi, ← hstar j hj, h]
  -- what is left of the key is the name
  have htext := congrArg String.toList h
  rw [toList_key, toList_key, hstatic, hwildcard, List.append_left_inj, List.append_right_inj] at htext
  have hnames := hi.names_eq hj htext
  cases i
  cases j
  simp_all

end Import

/-! ## Which declarations are found -/

/-- The declaration with this index has a key that is among those seen or that an earlier declaration has. -/
def isRepeat (source : Bytes) (seen : List String) (declarations : List Node) (i : Nat) : Bool :=
  (declarations[i]?.bind (key? source)).any fun key =>
    seen.contains key || (declarations.take i).any (key? source · == some key)

/-- A repeat is a declaration whose key was seen before. -/
private theorem isRepeat_iff {source : Bytes} {seen : List String} {declarations : List Node} {i : Nat} :
    isRepeat source seen declarations i = true ↔
      ∃ d key, declarations[i]? = some d ∧ key? source d = some key ∧
        (key ∈ seen ∨ ∃ j < i, ∃ d', declarations[j]? = some d' ∧ key? source d' = some key) := by
  -- the earlier declarations by their index
  have hearlier : ∀ key, (declarations.take i).any (key? source · == some key) = true ↔
      ∃ j < i, ∃ d', declarations[j]? = some d' ∧ key? source d' = some key := by
    intro key
    simp only [List.any_eq_true, List.mem_iff_getElem?, beq_iff_eq, List.getElem?_take]
    constructor
    · rintro ⟨d', ⟨j, hj⟩, hkey⟩
      split at hj
      · next hlt => exact ⟨j, hlt, d', hj, hkey⟩
      · cases hj
    · rintro ⟨j, hlt, d', hj, hkey⟩
      exact ⟨d', ⟨j, by rw [if_pos hlt, hj]⟩, hkey⟩
  simp only [isRepeat, Option.any_eq_true, Option.bind_eq_some_iff, Bool.or_eq_true, hearlier,
    List.contains_iff_mem]
  constructor
  · rintro ⟨key, ⟨d, hd, hkey⟩, h⟩
    exact ⟨d, key, hd, hkey, h⟩
  · rintro ⟨d, key, hd, hkey, h⟩
    exact ⟨key, ⟨d, hd, hkey⟩, h⟩

/-- Behind the first declaration its key counts as seen. -/
private theorem isRepeat_cons_succ (source : Bytes) (seen : List String) (d : Node) (rest : List Node) (i : Nat) :
    isRepeat source seen (d :: rest) (i + 1) =
      isRepeat source ((key? source d).toList ++ seen) rest i := by
  rw [Bool.eq_iff_iff, isRepeat_iff, isRepeat_iff]
  simp only [List.getElem?_cons_succ, List.mem_append, Option.mem_toList]
  -- the first declaration counts as earlier on the left, and as seen on the right
  refine exists_congr fun x => exists_congr fun key => and_congr_right fun _ => and_congr_right fun _ => ?_
  constructor
  · rintro (hseen | ⟨j, hj, d', hd', hkey⟩)
    · exact .inl (.inr hseen)
    · cases j with
      | zero =>
        obtain rfl : d = d' := by simpa using hd'
        exact .inl (.inl hkey)
      | succ j => exact .inr ⟨j, by omega, d', by simpa using hd', hkey⟩
  · rintro ((hkey | hseen) | ⟨j, hj, d', hd', hkey⟩)
    · exact .inr ⟨0, by omega, d, rfl, hkey⟩
    · exact .inl hseen
    · exact .inr ⟨j + 1, by omega, d', by simpa using hd', hkey⟩

/-- A declaration without a key is passed over. -/
private theorem repeats_of_none {source : Bytes} {d : Node} (h : key? source d = none) (seen : List String)
    (rest : List Node) : repeats source seen (d :: rest) = repeats source seen rest := by
  rw [repeats, h]

/-- A declaration whose key was seen is found. -/
private theorem repeats_of_mem {source : Bytes} {d : Node} {key : String} (h : key? source d = some key)
    {seen : List String} (hseen : key ∈ seen) (rest : List Node) :
    repeats source seen (d :: rest) = (d, key) :: repeats source seen rest := by
  simp [repeats, h, hseen]

/-- The first declaration with a key makes it a key that was seen. -/
private theorem repeats_of_not_mem {source : Bytes} {d : Node} {key : String} (h : key? source d = some key)
    {seen : List String} (hseen : key ∉ seen) (rest : List Node) :
    repeats source seen (d :: rest) = repeats source (key :: seen) rest := by
  simp [repeats, h, hseen]

/-- A key that was seen already changes nothing if it is seen again. -/
private theorem isRepeat_cons_of_mem (source : Bytes) {key : String} {seen : List String} (h : key ∈ seen)
    (declarations : List Node) :
    isRepeat source (key :: seen) declarations = isRepeat source seen declarations := by
  have hmem : ∀ k, k ∈ key :: seen ↔ k ∈ seen := by
    intro k
    rw [List.mem_cons]
    exact or_iff_right_of_imp fun hk => hk ▸ h
  funext i
  rw [Bool.eq_iff_iff, isRepeat_iff, isRepeat_iff]
  simp only [hmem]

/-- The declarations that are found are the repeats, in order. -/
theorem map_fst_repeats (source : Bytes) (seen : List String) (declarations : List Node) :
    (repeats source seen declarations).map (fun x => some x.1) =
      ((List.range declarations.length).filter (isRepeat source seen declarations)).map (declarations[·]?) := by
  induction declarations generalizing seen with
  | nil => rfl
  | cons d rest ih =>
    -- the indices behind the first declaration, with what is seen by then
    have hrest : ((List.range rest.length).map (· + 1)).filter (isRepeat source seen (d :: rest)) =
        ((List.range rest.length).filter
          (isRepeat source ((key? source d).toList ++ seen) rest)).map (· + 1) := by
      rw [List.filter_map]
      exact congrArg _ (List.filter_congr fun i _ => isRepeat_cons_succ source seen d rest i)
    have hshift : ∀ indices : List Nat,
        (indices.map (· + 1)).map ((d :: rest)[·]?) = indices.map (rest[·]?) := by
      intro indices
      rw [List.map_map]
      exact List.map_congr_left fun i _ => List.getElem?_cons_succ
    rw [List.length_cons, List.range_succ_eq_map, List.filter_cons, hrest]
    cases hkey : key? source d with
    | none =>
      have hfirst : isRepeat source seen (d :: rest) 0 = false := by simp [isRepeat, hkey]
      rw [hfirst, if_neg Bool.false_ne_true, hshift, repeats_of_none hkey]
      exact ih seen
    | some key =>
      -- before the first declaration there is none
      have hfirst : isRepeat source seen (d :: rest) 0 = seen.contains key := by simp [isRepeat, hkey]
      rw [hfirst]
      by_cases hseen : key ∈ seen
      · rw [if_pos (List.contains_iff_mem.2 hseen), List.map_cons, hshift, repeats_of_mem hkey hseen,
          List.map_cons, ih seen]
        exact congrArg _ (congrArg _ (congrArg (List.filter · _) (isRepeat_cons_of_mem source hseen rest).symm))
      · rw [if_neg (mt List.contains_iff_mem.1 hseen), hshift, repeats_of_not_mem hkey hseen]
        exact ih (key :: seen)

/-- Of the declarations with a key, all are found but one for each key that was not seen before. -/
theorem length_repeats_add_card (source : Bytes) (seen : List String) (declarations : List Node) :
    (repeats source seen declarations).length +
      ((declarations.filterMap (key? source)).toFinset \ seen.toFinset).card =
        (declarations.filterMap (key? source)).length := by
  induction declarations generalizing seen with
  | nil => simp [repeats]
  | cons d rest ih =>
    cases hkey : key? source d with
    | none =>
      rw [List.filterMap_cons_none hkey, repeats_of_none hkey]
      exact ih seen
    | some key =>
      rw [List.filterMap_cons_some hkey, List.toFinset_cons, List.length_cons]
      by_cases hseen : key ∈ seen
      · rw [repeats_of_mem hkey hseen, Finset.insert_sdiff_of_mem _ (List.mem_toFinset.2 hseen),
          List.length_cons, ← ih seen]
        omega
      · -- the key is counted here, and no more among those behind it
        have hcard : (insert key (rest.filterMap (key? source)).toFinset \ seen.toFinset).card =
            ((rest.filterMap (key? source)).toFinset \ (key :: seen).toFinset).card + 1 := by
          have hnew : key ∉ (rest.filterMap (key? source)).toFinset \ (key :: seen).toFinset := by simp
          rw [← Finset.card_insert_of_notMem hnew]
          congr 1
          ext x
          by_cases hx : x = key <;> simp [hx, hseen]
        rw [repeats_of_not_mem hkey hseen, hcard, ← ih (key :: seen)]
        omega

/-! ## What the rule reports -/

/-- The import declarations of a unit, in the order of the source. -/
def declarationsOf (u : SourceUnit) : List Node :=
  u.root.childrenOfKind ["import_declaration"]

/-- What the declarations import that have a name. -/
def importsOf (u : SourceUnit) : List Import :=
  (declarationsOf u).filterMap (import? u.source)

/-- The candidates of the rule are the declarations that it found. -/
private theorem exists_apply_eq_ok (u : SourceUnit) (properties : Properties) (hroot : u.root.kind = "program") :
    ∃ candidates, Rule.apply { Rule.duplicateImport with properties } u = .ok candidates ∧
      candidates.map (·.node?) = (repeats u.source [] (declarationsOf u)).map fun x => some x.1 := by
  have hscan : Rule.scan { Rule.duplicateImport with properties } u =
      ⟨(repeats u.source [] (declarationsOf u)).map fun x =>
        ⟨some x.1, some s!"Duplicate import: {x.2}"⟩, none⟩ := by
    -- the visit ends at the root
    show u.root.visit (respond u.source) = _
    rw [Node.visit_eq, respond, hroot]
    rfl
  rw [Rule.apply, hscan]
  refine ⟨_, rfl, ?_⟩
  rw [List.map_map, List.map_map]
  rfl

/-- The rule reports, in the order of the source and each at most once, the import declarations with a name
    that import what an earlier one with a name imports. There are as many of them as there are imports with
    a name beyond the first of each. -/
theorem apply_reportsRepeats (u : SourceUnit) (properties : Properties) (hroot : u.root.kind = "program")
    (hplain : ∀ d ∈ declarationsOf u, ∀ i, import? u.source d = some i → i.IsPlain) :
    ∃ (candidates : List Candidate) (indices : List Nat),
      Rule.apply { Rule.duplicateImport with properties } u = .ok candidates ∧
      candidates.map (·.node?) = indices.map ((declarationsOf u)[·]?) ∧
      indices.Pairwise (· < ·) ∧
      (∀ n, n ∈ indices ↔ ∃ d i, (declarationsOf u)[n]? = some d ∧ import? u.source d = some i ∧
        ∃ m < n, ∃ d', (declarationsOf u)[m]? = some d' ∧ import? u.source d' = some i) ∧
      candidates.length + (importsOf u).toFinset.card = (importsOf u).length := by
  obtain ⟨candidates, happly, hnodes⟩ := exists_apply_eq_ok u properties hroot
  -- two declarations have the same key exactly if they import the same
  have hsame : ∀ {n m : Nat} {d d' : Node} {i i' : Import}, (declarationsOf u)[n]? = some d →
      (declarationsOf u)[m]? = some d' → import? u.source d = some i → import? u.source d' = some i' →
      i.key = i'.key → i = i' := by
    intro n m d d' i i' hd hd' hi hi' hkey
    exact Import.key_injective (hplain d (List.mem_of_getElem? hd) i hi)
      (hplain d' (List.mem_of_getElem? hd') i' hi') hkey
  have hkeys : (declarationsOf u).filterMap (key? u.source) = (importsOf u).map Import.key := by
    rw [importsOf, List.map_filterMap]
    exact List.filterMap_congr fun d _ => key?_eq_map_import? u.source d
  -- so there are as many keys as imports
  have hcard : ((importsOf u).map Import.key).toFinset.card = (importsOf u).toFinset.card := by
    have himage : ((importsOf u).map Import.key).toFinset = (importsOf u).toFinset.image Import.key := by
      ext key
      simp
    rw [himage]
    refine Finset.card_image_of_injOn ?_
    intro i hi j hj hkey
    obtain ⟨d, hd, hdi⟩ := List.mem_filterMap.1 (List.mem_toFinset.1 hi)
    obtain ⟨e, he, hej⟩ := List.mem_filterMap.1 (List.mem_toFinset.1 hj)
    exact Import.key_injective (hplain d hd i hdi) (hplain e he j hej) hkey
  refine ⟨candidates, (List.range (declarationsOf u).length).filter
    (isRepeat u.source [] (declarationsOf u)), happly, hnodes.trans (map_fst_repeats _ _ _),
    List.pairwise_lt_range.filter _, ?_, ?_⟩
  · intro n
    rw [List.mem_filter, List.mem_range, isRepeat_iff]
    simp only [key?_eq_map_import?, Option.map_eq_some_iff, List.not_mem_nil, false_or]
    constructor
    · rintro ⟨-, d, _, hd, ⟨i, hi, rfl⟩, m, hm, d', hd', i', hi', hkey⟩
      exact ⟨d, i, hd, hi, m, hm, d', hd', hsame hd' hd hi' hi hkey ▸ hi'⟩
    · rintro ⟨d, i, hd, hi, m, hm, d', hd', hi'⟩
      exact ⟨(List.getElem?_eq_some_iff.1 hd).1, d, i.key, hd, ⟨i, hi, rfl⟩, m, hm, d', hd', i, hi', rfl⟩
  · have hlength := length_repeats_add_card u.source [] (declarationsOf u)
    rw [hkeys, List.length_map, List.toFinset_nil, Finset.sdiff_empty, hcard] at hlength
    have hcandidates := congrArg List.length hnodes
    rw [List.length_map, List.length_map] at hcandidates
    rw [hcandidates, hlength]

/-- An identifier at these bytes. -/
def identifierAt (start stop : Nat) : Node :=
  ⟨"identifier", none, ⟨start, stop, 0, start, 0, stop⟩, [], []⟩

/-- An import declaration with a name of two letters and a dot. -/
def declarationAt (start name stop : Nat) (isWildcard : Bool) : Node :=
  ⟨"import_declaration", none, ⟨start, stop, 0, start, 0, stop⟩, [],
    ⟨"scoped_identifier", none, ⟨name, name + 3, 0, name, 0, name + 3⟩, [],
      [identifierAt name (name + 1), identifierAt (name + 2) (name + 3)]⟩ ::
        if isWildcard then [⟨"asterisk", none, ⟨stop - 2, stop - 1, 0, stop - 2, 0, stop - 1⟩, [], []⟩]
        else []⟩

/-- A static import and an import that is not static, both of them twice, and a wildcard, all of one name. -/
def mixedImports : SourceUnit :=
  ⟨"A.java", "import a.B;import static a.B;import a.B.*;import static\ta.B;import a.B;".toUTF8.toList,
    ⟨"program", none, ⟨0, 71, 0, 0, 0, 71⟩, [],
      [declarationAt 0 7 11 false, declarationAt 11 25 29 false, declarationAt 29 36 42 true,
        declarationAt 42 56 60 false, declarationAt 60 67 71 false]⟩⟩

/-- Of five imports of one name the second static one is reported, and the second plain one. -/
theorem apply_reportsRepeats_mixedImports :
    (∀ d ∈ declarationsOf mixedImports, ∀ i, import? mixedImports.source d = some i → i.IsPlain) ∧
      ∃ (candidates : List Candidate) (indices : List Nat),
        Rule.duplicateImport.apply mixedImports = .ok candidates ∧
        candidates.map (·.node?) = indices.map ((declarationsOf mixedImports)[·]?) ∧
        candidates.length = 2 ∧ 3 ∈ indices ∧ 4 ∈ indices := by
  -- the tab before the name ends the keyword as a blank does
  have himports : importsOf mixedImports = [⟨false, ["a", "B"], false⟩, ⟨true, ["a", "B"], false⟩,
      ⟨false, ["a", "B"], true⟩, ⟨true, ["a", "B"], false⟩, ⟨false, ["a", "B"], false⟩] := by
    decide +kernel
  have hplain : ∀ d ∈ declarationsOf mixedImports, ∀ i, import? mixedImports.source d = some i →
      i.IsPlain := by
    have hnames : ∀ i ∈ importsOf mixedImports, i.names = ["a", "B"] := by
      rw [himports]
      decide
    intro d hd i hi
    rw [Import.IsPlain, hnames i (List.mem_filterMap.2 ⟨d, hd, hi⟩)]
    simp [Text.isBlank]
  obtain ⟨candidates, indices, happly, hnodes, -, hiff, hcount⟩ :=
    apply_reportsRepeats mixedImports Rule.duplicateImport.properties rfl hplain
  refine ⟨hplain, candidates, indices, happly, hnodes, ?_, ?_, ?_⟩
  · rw [himports] at hcount
    exact Nat.add_right_cancel hcount
  · exact (hiff 3).2 ⟨_, ⟨true, ["a", "B"], false⟩, rfl, by decide +kernel, 1, by decide, _, rfl,
      by decide +kernel⟩
  · exact (hiff 4).2 ⟨_, ⟨false, ["a", "B"], false⟩, rfl, by decide +kernel, 0, by decide, _, rfl,
      by decide +kernel⟩

end JavaLint.DuplicateImport
