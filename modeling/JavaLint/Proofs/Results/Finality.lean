import JavaLint.Proofs.Results.Building

/-!
# A finalized results tree is read-only

A call on a builder changes it step by step, and a call that fails does not take back what it did before.
Before a tree is finalized nothing is refused. Afterwards the first change of every call is refused: no
directory of the tree takes a child, and a path enters the table only after its directory was attached. So
neither the tree nor the table keeps a trace of a call that failed.

- `Call.perform`: the calls, as programs whose changes outlast a failure
- `Holds.performAll`: no insertion is refused before the tree is finalized
- `IsClosed.run_directory`: what a finalized builder answers to the request for a directory
- `IsReadOnly`: what a builder answers that changes no more
- `performAll_finalize`: every sequence of calls before and after a tree is finalized
-/

namespace JavaLint

/-! ## Calls as programs -/

/-- A call on a builder, or on the directory at a position of its tree. -/
inductive Call where
  | addFile (file : FileResults)
  | addDirectory (path : String)
  | addChild (position : Directory.Position) (child : FileResults ⊕ Directory)
  | finalize

namespace Call

/-- What a call does. Some calls answer with a directory. -/
def perform : Call → Builder.Program (Option Directory)
  | .addFile file => do
    Builder.attachFile file
    return none
  | .addDirectory path => do
    let position ← Builder.directory path
    return (← get).root.at? position
  | .addChild position child => do
    let _ ← Builder.attach position child
    return none
  | .finalize => do
    modify Builder.finalize
    return some (← get).root

/-- What a call answers. -/
def answer (call : Call) (b : Builder) : Except Error (Option Directory) :=
  match call.perform.run b with
  | .ok directory? _ => .ok directory?
  | .error e _ => .error e

/-- The builder after a call, whether it failed or not. -/
def next (call : Call) (b : Builder) : Builder :=
  match call.perform.run b with
  | .ok _ b' => b'
  | .error _ b' => b'

/-- The answers to a sequence of calls, and the builder after them. A failure does not end the sequence. -/
def performAll : List Call → Builder → List (Except Error (Option Directory)) × Builder
  | [], b => ([], b)
  | call :: rest, b =>
    (call.answer b :: (performAll rest (call.next b)).1, (performAll rest (call.next b)).2)

/-- Calls are performed one after another, so a sequence can be cut anywhere. -/
private theorem performAll_append (first second : List Call) (b : Builder) :
    performAll (first ++ second) b =
      ((performAll first b).1 ++ (performAll second (performAll first b).2).1,
        (performAll second (performAll first b).2).2) := by
  induction first generalizing b with
  | nil => rfl
  | cons call rest ih => rw [List.cons_append, performAll, ih, performAll, List.cons_append]

end Call

/-! ## Before a tree is finalized -/

/-- An insertion as a call. -/
def Insertion.call : Insertion → Call
  | .file results => .addFile results
  | .directory path => .addDirectory path

namespace Builder

/-- A program that gives a builder has run to its end. -/
private theorem exists_run_eq_ok {α : Type} {program : Program α} {b b' : Builder} (h : b.after program = .ok b') :
    ∃ a, program.run b = .ok a b' := by
  rw [after] at h
  -- a program that fails gives no builder
  cases hrun : program.run b with
  | ok a b₁ =>
    rw [hrun] at h
    obtain rfl := Except.ok.inj h
    exact ⟨a, rfl⟩
  | error e b₁ =>
    rw [hrun] at h
    cases h

/-- An insertion into an open tree is not refused. -/
private theorem Holds.perform {run : List Insertion} {b : Builder} (h : Holds run b) (insertion : Insertion) :
    ∃ b' directory?, insertion.call.perform.run b = .ok directory? b' ∧ b.insert insertion = .ok b' ∧
      Holds (run ++ [insertion]) b' := by
  obtain ⟨b', hinsert, hholds⟩ := h.insert insertion
  cases insertion with
  -- the call runs the program of the insertion and then only makes its answer
  | file results =>
    obtain ⟨_, hrun⟩ := exists_run_eq_ok hinsert
    refine ⟨b', none, ?_, hinsert, hholds⟩
    rw [Insertion.call, Call.perform, EStateM.run_bind, hrun]
    rfl
  | directory path =>
    obtain ⟨position, hrun⟩ := exists_run_eq_ok hinsert
    refine ⟨b', b'.root.at? position, ?_, hinsert, hholds⟩
    rw [Insertion.call, Call.perform, EStateM.run_bind, hrun]
    rfl

/-- A run of insertions into an open tree is not refused at any point. -/
theorem Holds.performAll {done : List Insertion} {b : Builder} (h : Holds done b) (run : List Insertion) :
    ∃ b' answers, Call.performAll (run.map Insertion.call) b = (answers, b') ∧
      b.insertAll run = .ok b' ∧ Holds (done ++ run) b' ∧
      ∀ answer ∈ answers, ∃ directory?, answer = .ok directory? := by
  -- each call starts where the one before has left the builder
  induction run generalizing done b with
  | nil => exact ⟨b, [], rfl, rfl, by rwa [List.append_nil], by simp⟩
  | cons insertion rest ih =>
    obtain ⟨b₁, directory?, hperform, hinsert, h₁⟩ := h.perform insertion
    obtain ⟨b₂, answers, hall, hrest, h₂, hok⟩ := ih h₁
    have hanswer : insertion.call.answer b = .ok directory? := by rw [Call.answer, hperform]
    have hnext : insertion.call.next b = b₁ := by rw [Call.next, hperform]
    refine ⟨b₂, .ok directory? :: answers, ?_, ?_, ?_, ?_⟩
    · rw [List.map_cons, Call.performAll, hanswer, hnext, hall]
    · rw [Builder.insertAll, hinsert]
      exact hrest
    · rwa [List.append_assoc] at h₂
    · simp only [List.forall_mem_cons]
      exact ⟨⟨directory?, rfl⟩, hok⟩

end Builder

/-! ## After a tree is finalized -/

namespace Directory

/-- No directory of the tree takes children. -/
def IsClosed (root : Directory) : Prop :=
  ∀ d ∈ root.directories, d.isSealed = true

/-- A sealed tree takes no children anywhere. -/
private theorem isClosed_sealTree (root : Directory) : root.sealTree.IsClosed := by
  intro d hd
  have hmem : d.entry ∈ root.sealTree.entries := List.mem_map_of_mem hd
  rw [entries_sealTree] at hmem
  -- every entry of the sealed tree was sealed
  obtain ⟨e, -, he⟩ := List.mem_map.1 hmem
  show d.entry.isSealed = true
  rw [← he]
  rfl

end Directory

namespace Builder

open Directory

/-- The tree is finalized and takes no children, and the table still leads to the directories of its paths,
    of which the empty one is the root. -/
structure IsClosed (b : Builder) : Prop where
  isFinalized : b.isFinalized = true
  isClosed : b.root.IsClosed
  leads : ∀ path position, b.position? path = some position →
    ∃ t, b.root.at? position = some t ∧ t.path = some path
  knowsRoot : "" ∈ b.paths

/-- The paths of the table are those that have a position. -/
private theorem mem_paths_iff {b : Builder} {path : String} :
    path ∈ b.paths ↔ ∃ position, b.position? path = some position := by
  rw [paths, position?, ← Option.isSome_iff_exists, List.lookup_isSome_iff, List.mem_map]
  simp only [beq_iff_eq, eq_comm (a := path)]

namespace IsClosed

variable {b : Builder}

/-- A closed tree refuses children everywhere, and nothing has changed then. -/
private theorem run_attach (h : b.IsClosed) {position : Position} {t : Directory}
    (ht : b.root.at? position = some t) (child : FileResults ⊕ Directory) :
    (attach position child).run b = .error (.sealedDirectory t.path) b :=
  run_attach_of_isSealed ht (h.isClosed t (mem_directories_of_at? ht)) child

/-- A closed builder gives out the directory of a path that it knows. For any other path the directory of
    the nearest ancestor that it knows refuses, and neither the tree nor the table has changed. -/
theorem run_directory (h : b.IsClosed) (path : String) :
    (directory path).run b =
      match b.position? path with
      | some position => .ok position b
      | none => .error (.sealedDirectory ((ancestors path).find? (· ∈ b.paths))) b := by
  -- induction on the length of the path: the request goes up to the nearest ancestor that is known
  induction hn : path.length using Nat.strongRecOn generalizing path with
  | ind n ih =>
    cases hposition : b.position? path with
    | some position => exact run_directory_of_position? hposition
    | none =>
      have hne : path ≠ "" := by
        rintro rfl
        obtain ⟨position, hroot⟩ := mem_paths_iff.1 h.knowsRoot
        cases hposition.symm.trans hroot
      -- the directory of the parent is asked for first, and its answer is known by induction
      rw [run_directory_of_new hposition hne, EStateM.run_bind, ih _ (hn ▸ length_parentPath_lt hne) _ rfl]
      cases hparent : b.position? (parentPath path) with
      | some position =>
        -- the parent is known, and refuses itself
        obtain ⟨t, ht, htpath⟩ := h.leads _ _ hparent
        have hknown : parentPath path ∈ b.paths := mem_paths_iff.2 ⟨position, hparent⟩
        have hnearest : (ancestors path).find? (· ∈ b.paths) = some (parentPath path) := by
          by_cases hempty : parentPath path = ""
          · rw [ancestors_of_parent_empty hempty, ← hempty, List.find?_cons, decide_eq_true hknown]
          · rw [ancestors_of_parent_ne hempty, List.find?_cons, decide_eq_true hknown]
        simp only [hnearest, ← htpath, EStateM.run_bind, h.run_attach ht]
      | none =>
        -- the parent is missing too, so the search goes on above it
        have hunknown : parentPath path ∉ b.paths := by
          rw [mem_paths_iff, hparent]
          simp
        have hempty : parentPath path ≠ "" := by
          intro heq
          exact hunknown (heq ▸ h.knowsRoot)
        rw [ancestors_of_parent_ne hempty, List.find?_cons, decide_eq_false hunknown]

end IsClosed

/-- The builder changes no more: files, new directories and children of any directory of the tree are
    refused, a directory that is in the table is given out, and the root stays what it is. The builder that is
    left after a call has the table too, so no path was entered either. -/
structure IsReadOnly (b : Builder) : Prop where
  addFile : ∀ file, (Call.addFile file).perform.run b = .error .finalized b
  addKnown : ∀ path ∈ b.paths, ∃ position d, b.position? path = some position ∧
    b.root.at? position = some d ∧ d.path = some path ∧
    (Call.addDirectory path).perform.run b = .ok (some d) b
  addUnknown : ∀ path ∉ b.paths, ∃ nearest, (ancestors path).find? (· ∈ b.paths) = some nearest ∧
    (Call.addDirectory path).perform.run b = .error (.sealedDirectory (some nearest)) b
  addChild : ∀ position d child, b.root.at? position = some d →
    (Call.addChild position child).perform.run b = .error (.sealedDirectory d.path) b
  children : ∀ d ∈ b.root.directories, ∀ child, d.addChild child = .error (.sealedDirectory d.path)
  finalize : Call.finalize.perform.run b = .ok (some b.root) b

/-- A closed builder changes no more. -/
private theorem IsClosed.isReadOnly {b : Builder} (h : b.IsClosed) : b.IsReadOnly where
  addFile := by
    intro file
    rw [Call.perform, EStateM.run_bind, attachFile, EStateM.run_bind, EStateM.run_get]
    simp only [h.isFinalized, if_true]
    rfl
  addKnown := by
    intro path hpath
    obtain ⟨position, hposition⟩ := mem_paths_iff.1 hpath
    -- the table leads to a directory with the path, and nothing is made on the way
    obtain ⟨d, hd, hdpath⟩ := h.leads path position hposition
    refine ⟨position, d, hposition, hd, hdpath, ?_⟩
    rw [Call.perform, EStateM.run_bind, run_directory_of_position? hposition]
    show EStateM.Result.ok (b.root.at? position) b = _
    rw [hd]
  addUnknown := by
    intro path hpath
    -- the empty path is among the ancestors of every path, so one of them is known
    have hsome : ((ancestors path).find? (· ∈ b.paths)).isSome = true := by
      rw [List.find?_isSome]
      exact ⟨"", empty_mem_ancestors path, decide_eq_true h.knowsRoot⟩
    obtain ⟨nearest, hnearest⟩ := Option.isSome_iff_exists.1 hsome
    have hnone : b.position? path = none := by
      rw [Option.eq_none_iff_forall_ne_some]
      exact fun position hposition => hpath (mem_paths_iff.2 ⟨position, hposition⟩)
    refine ⟨nearest, hnearest, ?_⟩
    rw [Call.perform, EStateM.run_bind, h.run_directory, hnone, hnearest]
  addChild := by
    intro position d child hd
    rw [Call.perform, EStateM.run_bind, h.run_attach hd]
  children := by
    intro d hd child
    rw [Directory.addChild, if_pos (h.isClosed d hd)]
  finalize := by
    have hsame : b.finalize = b := by rw [Builder.finalize, if_pos h.isFinalized]
    rw [Call.perform, EStateM.run_bind, EStateM.run_modify, hsame]
    rfl

/-- No call changes a read-only builder. -/
private theorem IsReadOnly.next_eq {b : Builder} (h : b.IsReadOnly) (call : Call) : call.next b = b := by
  cases call with
  | addFile file => rw [Call.next, h.addFile]
  | addDirectory path =>
    by_cases hpath : path ∈ b.paths
    · obtain ⟨position, d, -, -, -, hperform⟩ := h.addKnown path hpath
      rw [Call.next, hperform]
    · obtain ⟨nearest, -, hperform⟩ := h.addUnknown path hpath
      rw [Call.next, hperform]
  | addChild position child =>
    cases hat : b.root.at? position with
    | some d => rw [Call.next, h.addChild position d child hat]
    | none =>
      -- there is no directory at the position, so nothing is called
      have hattach : (attach position child).run b = .ok position b := by
        rw [attach, EStateM.run_bind, EStateM.run_get]
        simp only [hat]
        rfl
      rw [Call.next, Call.perform, EStateM.run_bind, hattach]
      rfl
  | finalize => rw [Call.next, h.finalize]

/-- Nor does any sequence of calls, and each answers as if it were the only one. -/
private theorem IsReadOnly.performAll_eq {b : Builder} (h : b.IsReadOnly) (calls : List Call) :
    Call.performAll calls b = (calls.map (·.answer b), b) := by
  induction calls with
  | nil => rfl
  | cons call rest ih => rw [Call.performAll, h.next_eq, ih, List.map_cons]

/-- Finalizing closes an open builder: the tree is sealed, and the table stays as it is. -/
private theorem IsOpen.isClosed_finalize {b : Builder} (h : b.IsOpen) : b.finalize.IsClosed := by
  have hfinalize : b.finalize = { b with root := b.root.sealTree, isFinalized := true } := by
    rw [finalize, if_neg (by simp [h.notFinalized])]
  rw [hfinalize]
  refine ⟨rfl, b.root.isClosed_sealTree, fun path position hposition => ?_, ?_⟩
  · obtain ⟨t, ht, htpath⟩ := h.leads path position hposition
    -- sealing moves nothing, so the table leads to the sealed directory
    have hsealed : b.root.sealTree.at? position = some t.sealTree := by rw [at?_sealTree, ht, Option.map_some]
    exact ⟨t.sealTree, hsealed, (congrArg Entry.path t.entry_sealTree).trans htpath⟩
  · exact mem_paths_iff.2 (h.knows "" (mem_paths b.root.self_mem_directories h.wellPlaced.root_path))

/-- Every run of insertions into a new builder succeeds. Once the tree is finalized the builder is read-only:
    whatever is called then, and however often, it stays as it is, its tree and its table. -/
theorem performAll_finalize (run : List Insertion) :
    ∃ b answers, Call.performAll (run.map Insertion.call) empty = (answers, b) ∧
      (∀ answer ∈ answers, ∃ directory?, answer = .ok directory?) ∧ b.finalize.IsReadOnly ∧
      ∀ later, Call.performAll (run.map Insertion.call ++ .finalize :: later) empty =
        (answers ++ .ok (some b.finalize.root) :: later.map (·.answer b.finalize), b.finalize) := by
  obtain ⟨b, answers, hperform, -, hholds, hok⟩ := holds_empty.performAll run
  have hreadOnly : b.finalize.IsReadOnly := hholds.toIsOpen.isClosed_finalize.isReadOnly
  refine ⟨b, answers, hperform, hok, hreadOnly, fun later => ?_⟩
  rw [Call.performAll_append, hperform]
  show (answers ++ (Call.performAll (.finalize :: later) b).1, (Call.performAll (.finalize :: later) b).2) = _
  -- the call that finalizes answers with the sealed root, and from there on nothing changes
  have hanswer : Call.finalize.answer b = .ok (some b.finalize.root) := rfl
  have hnext : Call.finalize.next b = b.finalize := rfl
  rw [Call.performAll, hanswer, hnext, hreadOnly.performAll_eq]

end Builder

end JavaLint
