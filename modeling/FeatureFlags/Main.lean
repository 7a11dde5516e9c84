import FeatureFlags.Disk

/-!
# The entry point

Calls the program on the disk: what it prints goes to standard output, and its log and its error to
standard error.
-/

open FeatureFlags in
def main (arguments : List String) : IO UInt32 := do
  let files ←
    match CommandLine.parse arguments with
    | .ok commandLine => Disk.take commandLine
    | .error _ => pure (Disk.emptyAt [])
  let report := Program.call files (← IO.getEnv "RUST_LOG") arguments
  IO.print report.output
  report.log.forM IO.eprintln
  report.errorText.forM IO.eprintln
  try
    report.written.forM (Disk.store report.files)
    return UInt32.ofNat report.exitCode
  catch fault =>
    IO.eprintln ("Error: " ++ toString fault)
    return 1
