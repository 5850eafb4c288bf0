import Z80Asm.Proofs.Outcomes

/-!
# Files that a command leaves behind

A command writes its files one after the other, and ends at the first that cannot be written.  A command that fails
before it writes leaves all files as they are; one that fails while it writes leaves those behind that it has written.
-/

namespace Z80Asm

variable {d left : Disk} {name reason contents : Text} {args : List Text}

namespace Disk

def writeEach (d : Disk) (files : List (Text × Text)) : Except Text Disk :=
  files.foldlM (fun d (name, contents) => d.write name contents) d

theorem writeEach_cons (d : Disk) (name contents : Text) (rest : List (Text × Text)) :
    d.writeEach ((name, contents) :: rest) =
      match d.write name contents with
      | .ok d => d.writeEach rest
      | .error reason => .error reason := by
  simp only [writeEach, List.foldlM_cons]
  cases d.write name contents <;> rfl

theorem write_directory {path : Text} {parts : List Text} (named : withoutEndSlashes path = path)
    (found : d.follow path = .ok (.directory parts)) (contents : Text) :
    d.write path contents = .error (complaint "open" path .isDirectory) := by
  simp only [write, named, ite_self, found]

/-- A file cannot be written after others, with which the disk has changed already. -/
def BreaksOff (d : Disk) (files : List (Text × Text)) : Prop :=
  ∃ before name contents after left reason, files = before ++ (name, contents) :: after ∧
    d.writeEach before = .ok left ∧ left.write name contents = .error reason ∧ ∃ other : Text, left[other]? ≠ d[other]?

theorem not_breaksOff_of_refused (refused : d.write name contents = .error reason) (rest : List (Text × Text)) :
    ¬ d.BreaksOff ((name, contents) :: rest) := by
  rintro ⟨before, _, _, _, left, _, files, written, -, _, differs⟩
  cases before with
  | nil =>
    cases written
    exact differs rfl
  | cons first before =>
    cases files
    simp [writeEach_cons, refused] at written

end Disk

namespace Command

namespace Job
variable {job : Job} {files : List (Text × Text)} {r : Report}

theorem writeAll_refused {before after : List (Text × Text)} (written : d.writeEach before = .ok left)
    (refused : left.write name contents = .error reason) :
    job.writeAll (before ++ (name, contents) :: after) r d = (job.unwritten r name reason, left) := by
  induction before generalizing d with
  | nil =>
    cases written
    simp only [List.nil_append, writeAll, refused]
  | cons file before ih =>
    obtain ⟨first, data⟩ := file
    rw [Disk.writeEach_cons] at written
    simp only [List.cons_append, writeAll]
    cases h : d.write first data with
    | ok d =>
      rw [h] at written
      exact ih written
    | error => simp [h] at written

theorem left_of_breaksOff {final : Report} (all : job.writeAll files r d = (final, left)) :
    d.BreaksOff files → ∃ other : Text, left[other]? ≠ d[other]? := by
  rintro ⟨before, name, contents, after, _, reason, rfl, written, refused, differs⟩
  rw [writeAll_refused written refused] at all
  cases all
  exact differs

theorem writeAll_cases (job : Job) (files : List (Text × Text)) (r : Report) (d : Disk) :
    (∃ left, d.writeEach files = .ok left ∧ job.writeAll files r d = (r, left)) ∨
      ∃ before name contents after left reason, files = before ++ (name, contents) :: after ∧
        d.writeEach before = .ok left ∧ left.write name contents = .error reason := by
  induction files generalizing d with
  | nil => exact .inl ⟨d, rfl, rfl⟩
  | cons file rest ih =>
    obtain ⟨name, contents⟩ := file
    cases h : d.write name contents with
    | error reason => exact .inr ⟨[], name, contents, rest, d, reason, rfl, rfl, h⟩
    | ok d' =>
      rcases ih d' with ⟨left, written, all⟩ | ⟨before, other, data, after, left, reason, rfl, written, refused⟩
      · exact .inl ⟨left, by rw [Disk.writeEach_cons, h]; exact written, by rw [writeAll, h]; exact all⟩
      · exact .inr ⟨(name, contents) :: before, other, data, after, left, reason, rfl,
          by rw [Disk.writeEach_cons, h]; exact written, refused⟩

theorem unwritten_exit (job : Job) (r : Report) (name reason : Text) : (job.unwritten r name reason).exit = .file := rfl

theorem report_code (job : Job) (result : Result) : (job.report result).exit.code = result.exitCode := by
  have kept (r : Report) (toStderr : Bool) (t : Text) : (r.print toStderr t).exit = r.exit := by
    cases toStderr <;> rfl
  simp only [report, kept, Result.exitCode]
  split <;> simp only [kept]

end Job

theorem writes_iff (e : Exit) : (e == .done || e == .errors) = true ↔ e.code ≤ 1 := by cases e <;> decide

/-- The source of a command line can be assembled, with errors or without, and then some files are to be written. -/
def Assembles (args : List Text) (d : Disk) (job : Job) (result : Result) : Prop :=
  plan args = .ok job ∧
    Assembly.assembleFile (job.settings d.read) Assembly.neverCancelled job.source = .finished result ∧
    result.exitCode ≤ 1

theorem Assembles.unique {job job' : Job} {result result' : Result} (h : Assembles args d job result)
    (h' : Assembles args d job' result') : job' = job ∧ result' = result := by
  obtain ⟨planned, finished, -⟩ := h
  obtain ⟨planned', finished', -⟩ := h'
  cases planned.symm.trans planned'
  cases finished.symm.trans finished'
  exact ⟨rfl, rfl⟩

/-- **A command writes its files**, or nothing. -/
theorem run_cases {r : Report} (ran : run args d = some (r, left)) :
    (left = d ∧ ¬ ∃ job result, Assembles args d job result) ∨
      ∃ job result, Assembles args d job result ∧
        job.writeAll (job.files result) (job.report result) d = (r, left) := by
  cases planned : plan args with
  | error =>
    simp only [run, planned, Option.some.injEq, Prod.mk.injEq] at ran
    exact .inl ⟨ran.2.symm, fun ⟨_, _, ok, _⟩ => nomatch planned.symm.trans ok⟩
  | ok job =>
    cases ended : Assembly.assembleFile (job.settings d.read) Assembly.neverCancelled job.source with
    | outOfBounds => simp [run, planned, Job.assemble, ended] at ran
    | finished result =>
      simp only [run, planned, Job.assemble, ended, Option.map_some, writes_iff, Job.report_code] at ran
      by_cases writes : result.exitCode ≤ 1
      · rw [if_pos writes, Option.some.injEq] at ran
        exact .inr ⟨job, result, ⟨planned, ended, writes⟩, ran⟩
      · rw [if_neg writes] at ran
        cases ran
        refine .inl ⟨rfl, ?_⟩
        rintro ⟨_, _, ok, finished, le⟩
        cases planned.symm.trans ok
        cases ended.symm.trans finished
        exact writes le

/-- **A command that fails leaves all files as they are**, unless the source was assembled, and a file is refused after
    others have been written that changed the disk.  The exit code is two then. -/
theorem failed_run_keeps_files_iff {args : List Text} {d left : Disk} {r : Report} (ran : run args d = some (r, left))
    (failed : 2 ≤ r.exit.code ∧ r.exit.code ≤ 5) :
    ((∀ name : Text, left[name]? = d[name]?) ↔
      ¬ ∃ job result, Assembles args d job result ∧ d.BreaksOff (job.files result)) ∧
    (r.exit.code ≠ 2 → ∀ name : Text, left[name]? = d[name]?) := by
  rcases run_cases ran with ⟨rfl, unassembled⟩ | ⟨job, result, assembles, all⟩
  · refine ⟨iff_of_true (fun _ => rfl) ?_, fun _ _ => rfl⟩
    rintro ⟨job, result, assembles, -⟩
    exact unassembled ⟨job, result, assembles⟩
  · rcases job.writeAll_cases (job.files result) (job.report result) d with
      ⟨_, _, whole⟩ | ⟨before, name, contents, after, left', reason, files, written, refused⟩
    · -- a command has not failed if all its files are written
      cases all.symm.trans whole
      have fine := assembles.2.2
      rw [← job.report_code] at fine
      omega
    · cases all.symm.trans (files ▸ Job.writeAll_refused written refused)
      refine ⟨⟨?_, fun kept => ?_⟩, fun other => absurd (congrArg Exit.code (job.unwritten_exit _ _ _)) other⟩
      · rintro same ⟨_, _, again, breaks⟩
        obtain ⟨rfl, rfl⟩ := assembles.unique again
        obtain ⟨other, differs⟩ := Job.left_of_breaksOff all breaks
        exact differs (same other)
      · by_contra differs
        exact kept ⟨job, result, assembles, before, name, contents, after, left, reason, files, written, refused,
          not_forall.1 differs⟩

/-- A disk with a source and a directory that has the name of the target. -/
def coveredDisk : Disk := .ofList [(bytes "a.asm", bytes " nop\n"), (bytes "a.out/b", [])]

theorem failed_run_keeps_files_iff_covered : ∃ r left, run [bytes "-ls", bytes "a.asm"] coveredDisk = some (r, left) ∧
    r.exit.code = 2 ∧ ∀ name : Text, left[name]? = coveredDisk[name]? := by
  have runs : (run [bytes "-ls", bytes "a.asm"] coveredDisk).any (fun e => e.1.exit.code == 2) = true := by decide +kernel
  obtain ⟨⟨r, left⟩, ran, two⟩ := (Option.any_eq_true _ _).1 runs
  have code : r.exit.code = 2 := beq_iff_eq.1 two
  refine ⟨r, left, ran, code, (failed_run_keeps_files_iff ran (by omega)).1.2 ?_⟩
  rintro ⟨job, result, ⟨planned, -, -⟩, breaks⟩
  have target : (plan [bytes "-ls", bytes "a.asm"]).toOption.any (·.target == bytes "a.out") = true := by decide +kernel
  have isDirectory : (coveredDisk.follow (bytes "a.out")).toOption.any (· == .directory [bytes "a.out"]) = true := by
    decide +kernel
  cases found : coveredDisk.follow (bytes "a.out") with
  | error => simp [found, Except.toOption] at isDirectory
  | ok spot =>
    rw [found] at isDirectory
    rw [planned] at target
    cases beq_iff_eq.1 isDirectory
    have named : job.target = bytes "a.out" := beq_iff_eq.1 target
    exact Disk.not_breaksOff_of_refused (named ▸ Disk.write_directory (by decide) found _) _ breaks

/-- A source on a disk where the listing cannot be written, and one where the symbol file cannot. -/
def blockedDisks : List (Text × Disk) :=
  [(bytes "-l", .ofList [(bytes "a.asm", bytes " nop\n"), (bytes "a.lst/b", [])]),
    (bytes "-ls", .ofList [(bytes "a.asm", bytes " nop\n"), (bytes "a.sym/b", [])])]

/-- **A command that fails may leave a file behind**: with a listing or a symbol file that cannot be written, the exit
    code is two, and the target has been made. -/
theorem failed_run_leaves_target : blockedDisks.all (fun (options, disk) =>
    (run [options, bytes "a.asm"] disk).any fun (outcome, after) =>
      outcome.exit.code == 2 && after[bytes "a.out"]? == some [0] && (disk[bytes "a.out"]?).isNone) = true := by
  decide +kernel

end Command

end Z80Asm
