import Z80Asm.Command

/-!
# Files that a job needs

The paths that assembling asks for can be told from the lines of the source and of its macros, as far as
the files are known.  Reading the paths of `Job.requests` again and again, until none is new, gives every
file that the job will read.
-/

namespace Z80Asm.Command

/-- The paths under which a line looks for a file. -/
def lineRequests (s : Settings) (line : Line) : List Text :=
  if Token.bodyIs .insert line.tokens || Token.bodyIs .incbin line.tokens then
    let name := (Token.fileName ((Token.body line.tokens).drop 1)).1
    if name.isEmpty then [] else s.candidates name line.pos.file
  else []

def Job.requests (job : Job) (read : Text → Except Text Text) : List Text :=
  let s := job.settings read
  match s.read job.source with
  | .error _ => [job.source]
  | .ok data =>
    let loaded := Source.load s Source.includeLimit job.source data {}
    let expanded := Macro.expand s Macro.depthLimit loaded.lines.toList {}
    job.source :: (loaded.lines ++ expanded.lines).toList.flatMap (lineRequests s)

end Z80Asm.Command
