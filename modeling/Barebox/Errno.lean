import Mathlib.Init

/-! Error codes. A C function that returns `int` becomes a function into
`Except Errno`, zero being `ok`; the sign is left out. -/
namespace Barebox

inductive Errno where
  | eperm | enoent | eio | e2big | enomem | eacces | ebusy | eexist | enodev | einval
  | enospc | espipe | erofs | erange | enodata | ebadmsg | eoverflow | eilseq | euclean | enomedium
  | enosys
  | enxio | eopnotsupp | eintr | etimedout
  | eagain | econnrefused | econnreset | enetdown
  | enotdir | eisdir
  deriving DecidableEq, Repr

end Barebox
