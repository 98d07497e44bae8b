import Ucore.Proofs.Mm.BestFit
import Ucore.Proofs.Mm.BuddyBounds
import Ucore.Proofs.Mm.RefCount
import Ucore.Proofs.Mm.PrivateMem
import Ucore.Proofs.Mm.SlobRun
import Ucore.Proofs.Mm.CopyString
import Ucore.Proofs.Mm.PageInit8
import Ucore.Proofs.Sync.PhiCondvar
import Ucore.Proofs.Sync.Sem
import Ucore.Proofs.Schedule.KernelRun
import Ucore.Proofs.Schedule.Share
import Ucore.Proofs.Schedule.Stride8
import Ucore.Proofs.Fs.Bitmap
import Ucore.Proofs.Fs.Zeros
import Ucore.Proofs.Fs.Cache
import Ucore.Proofs.Fs.Stdin
import Ucore.Proofs.Fs.Sysfile
import Ucore.Proofs.Process.Execve
import Ucore.Proofs.Process.MmRun
import Ucore.Proofs.Process.GetPid
import Ucore.Proofs.Process.Files
import Ucore.Libs.SkewHeap
import Ucore.Proofs.User.Sh
import Ucore.Proofs.Driver.Dtb
import Ucore.Proofs.Tools.Blocks
