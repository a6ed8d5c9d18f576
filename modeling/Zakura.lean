import Zakura.Catalog.Theorems
import Zakura.Client.HistoryTheorems
import Zakura.Client.SyncTheorems
import Zakura.Directory.Theorems
import Zakura.Display.Theorems
import Zakura.Filter.Theorems
import Zakura.Hints.Theorems
import Zakura.Ledger.Theorems
import Zakura.Native.Theorems
import Zakura.Receiver.Guarantees
import Zakura.Recovery.Theorems
import Zakura.ShardInventory.Theorems
import Zakura.Transparent.Theorems
import Zakura.Wire.Theorems
