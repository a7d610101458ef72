import SysrepoAugeas.Store.NestedRun
import SysrepoAugeas.Store.Reorder
import SysrepoAugeas.Store.Anchor
import SysrepoAugeas.Dict.Insert
import SysrepoAugeas.Ynode.WhenRef
import SysrepoAugeas.Ynode.Plant
import SysrepoAugeas.Ynode.Rotate
import SysrepoAugeas.Label.Apply
import SysrepoAugeas.Label.Buffer
import SysrepoAugeas.Ynode.PrintChoice
import SysrepoAugeas.Ynode.SplitRoom
import SysrepoAugeas.Load.Keys
import SysrepoAugeas.Load.Commit
import SysrepoAugeas.Term.Minus
import SysrepoAugeas.Term.Posix
import SysrepoAugeas.Pattern.VbarQm
import SysrepoAugeas.Pattern.Room
import SysrepoAugeas.Pattern.Limit
import SysrepoAugeas.Pattern.Nesting
import SysrepoAugeas.Ynode.Implicit
import SysrepoAugeas.Ynode.Ahead
import SysrepoAugeas.Ynode.MergeRun
import SysrepoAugeas.Ynode.Reverse
import SysrepoAugeas.Ynode.Lnodes
import SysrepoAugeas.Ident.Standardized
import SysrepoAugeas.Ident.Duplicates
import SysrepoAugeas.Pnode.Reference
import SysrepoAugeas.Load.Patterns
import SysrepoAugeas.Ynode.Settled
