import Xv6.Image

/-!
# No call locks an inode twice

`iput` takes the lock of an inode, and `dirlookup` can return the directory it searches, so a call that looks
a name up in a directory and gives up what it finds must not have found that directory. `link` and `unlink`
do not check this.
-/

namespace Xv6.Calls

open Store Hoare

variable {sb : Superblock} {s : Disk}

end Xv6.Calls
