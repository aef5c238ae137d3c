import Edk2.Gcd.Attributes
import Edk2.Gcd.AddMemory
import Edk2.Policy.Verdict
import Edk2.Var.Map
import Edk2.Var.Flash
import Edk2.Auth.Replay
import Edk2.Auth.Keys
import Edk2.Auth.Append
import Edk2.Text.Base64
import Edk2.Event.Timer
import Edk2.Event.Discipline
import Edk2.Net.Reassemble
import Edk2.Net.Reassemble6
import Edk2.Net.Checksum
import Edk2.Hand.Uninstall
import Edk2.Http.Report
import Edk2.Fat.Coherence
import Edk2.Fat.Content
import Edk2.Mem.FreePages
import Edk2.Capsule.Joined
import Edk2.PeCoff.Laws
import Edk2.Mtrr.Merge
import Edk2.Ftw.LastWrite
import Edk2.Pci.Aperture
import Edk2.Hand.Key
