import JavaLint.Proofs.Results.Traversal

/-!
# Totals of any results tree

A directory answers for everything below it, and also for its own files alone. Whatever the shape of the tree,
and whatever file counts its directories were given, the two agree: a total is the sum of what the directories
of the tree answer for themselves, and a count of violations is a count over the violations of the tree.

- `countWith_eq_countP`: violations are counted one by one
- `countWith_eq_sum_direct`, `filesWithin_eq_sum_direct`: totals as sums over directories
- `Violation.sum_countP_priorities`: no violation is counted under two priorities
- `totals_flatten`: all of it together
-/

namespace JavaLint

/-! ## Totals as sums and counts -/

namespace Directory

/-- A directory counts the violations of its own files file by file. -/
private theorem directCountWith_eq_sum (priority : Int) (d : Directory) :
    d.directCountWith priority = (d.files.map (·.countWith priority)).sum := by
  rw [directCountWith, List.countP_flatMap]
  rfl

/-- The violations with a priority are counted directory by directory. -/
theorem countWith_eq_sum_direct (priority : Int) (d : Directory) :
    d.countWith priority = (d.directories.map (directCountWith priority)).sum := by
  rw [countWith_eq_sum, ← sum_directories_files]
  exact congrArg List.sum (List.map_congr_left fun e _ => (directCountWith_eq_sum priority e).symm)

/-- The violations with a priority are counted one by one. -/
theorem countWith_eq_countP (priority : Int) (d : Directory) :
    d.countWith priority = d.violations.countP (·.hasPriority priority) := by
  -- files and directories are mixed in the visit that lists the violations, but it meets the same files
  have hperm := (visitedFiles_perm d).map (·.countWith priority)
  calc d.countWith priority
      = (d.allFiles.map (·.countWith priority)).sum := countWith_eq_sum priority d
    _ = (d.visitedFiles.map (·.countWith priority)).sum := hperm.sum_eq.symm
    _ = d.violations.countP (·.hasPriority priority) := by
      rw [violations_eq_flatMap, List.countP_flatMap]
      rfl

/-- The files with a violation up to a priority are counted directory by directory. -/
theorem filesWithin_eq_sum_direct (maxPriority : Int) (d : Directory) :
    d.filesWithin maxPriority = (d.directories.map (directFilesWithin maxPriority)).sum := by
  rw [filesWithin_eq_countP, allFiles, List.countP_flatMap]
  rfl

end Directory

/-! ## All priorities together -/

namespace Violation

/-- A number is one priority at most. -/
private theorem countP_priorities (number : Option Int) :
    Rule.priorities.countP (number == some ·) = if Rule.priorities.any (number == some ·) then 1 else 0 := by
  cases number with
  | none => rfl
  | some n =>
    -- the list of priorities has no number twice, so a number is counted once or not at all
    have hcount : Rule.priorities.countP (some n == some ·) = Rule.priorities.count n := by
      refine List.countP_congr fun p _ => ?_
      rw [beq_iff_eq, beq_iff_eq, Option.some.injEq]
      exact eq_comm
    have hany : Rule.priorities.any (some n == some ·) = decide (n ∈ Rule.priorities) := by
      rw [Bool.eq_iff_iff, List.any_eq_true, decide_eq_true_iff]
      constructor
      · rintro ⟨p, hp, heq⟩
        obtain rfl : n = p := by simpa using heq
        exact hp
      · intro hn
        exact ⟨n, hn, beq_self_eq_true _⟩
    have hnodup : Rule.priorities.Nodup := by decide
    rw [hcount, hany, hnodup.count]
    simp

/-- The violations under each priority, added up, are those that have some priority. -/
theorem sum_countP_priorities (violations : List Violation) :
    (Rule.priorities.map fun p => violations.countP (·.hasPriority p)).sum =
      violations.countP fun v => Rule.priorities.any (v.hasPriority ·) := by
  induction violations with
  | nil => rfl
  | cons v rest ih =>
    -- each violation adds one under each of its priorities, and it has one at most
    have hself : (Rule.priorities.map fun p => if v.hasPriority p then 1 else 0).sum =
        Rule.priorities.countP (v.hasPriority ·) := by
      simp [Rule.priorities, List.countP_cons]
      omega
    have hone : Rule.priorities.countP (v.hasPriority ·) =
        if Rule.priorities.any (v.hasPriority ·) then 1 else 0 :=
      countP_priorities v.rule.priority.number?
    simp only [List.countP_cons, List.sum_map_add, ih, hself, hone]

end Violation

/-- In every tree, each count of violations at a directory is a count over its violations and the sum of the own
    counts of the directories in it, and the numbers of files are such sums too. The counts of the four
    priorities add up to the number of violations exactly if every violation has one of these priorities. -/
theorem Directory.totals_flatten (d : Directory) :
    (∀ priority, d.countWith priority = d.violations.countP (·.hasPriority priority) ∧
      d.countWith priority = (d.directories.map (directCountWith priority)).sum) ∧
    (∀ maxPriority, d.filesWithin maxPriority = (d.directories.map (directFilesWithin maxPriority)).sum) ∧
    d.totalFiles = (d.directories.map (·.fileCount)).sum ∧
    ((Rule.priorities.map fun p => d.countWith p).sum = d.violations.length ↔
      ∀ v ∈ d.violations, ∃ p ∈ Rule.priorities, v.hasPriority p = true) := by
  refine ⟨?_, ?_, totalFiles_eq_sum d, ?_⟩
  · intro priority
    exact ⟨countWith_eq_countP priority d, countWith_eq_sum_direct priority d⟩
  · intro maxPriority
    exact filesWithin_eq_sum_direct maxPriority d
  · -- a count reaches the length exactly if everything is counted
    simp only [countWith_eq_countP, Violation.sum_countP_priorities, List.countP_eq_length,
      List.any_eq_true]

end JavaLint
