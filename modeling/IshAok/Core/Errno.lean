/-!
# Error Numbers

The errors the modelled calls answer with. The source spells them as negative
integers (`_EPERM`, `_EINVAL`); here a failing call has the name as its answer,
so the sign convention disappears.

## Main definitions

* `Errno`: The error numbers the modelled functions return.
-/

namespace IshAok

/-- The error numbers the modelled functions return. -/
inductive Errno
  | eperm
  | esrch
  | eintr
  | eio
  | ebadf
  | eagain
  | enomem
  | eacces
  | efault
  | ebusy
  | einval
  | enospc
  | espipe
  | edeadlk
  | eoverflow
  | enoent
  | enotdir
  | emfile
  | eisdir
  | exdev
  | eloop
  | enametoolong
  | eexist
  | enosys
  | emsgsize
  | etimedout
  | erestart
  | erestartNointr
  deriving DecidableEq, Repr

end IshAok
