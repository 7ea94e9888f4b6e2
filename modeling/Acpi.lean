import Acpi.Bench.Counted
import Acpi.Bench.Recorded
import Acpi.Proofs.Calls.Arguments
import Acpi.Proofs.Calls.Limit
import Acpi.Proofs.Calls.Runaway
import Acpi.Proofs.Devices.Discovery
import Acpi.Proofs.Storage.Copies
import Acpi.Proofs.Storage.Ledger
import Acpi.Proofs.Storage.Residue
import Acpi.Proofs.Storage.Returns
import Acpi.Proofs.Storage.Teardown
import Acpi.Proofs.Storage.Variables
import Acpi.Proofs.Tree.Address
import Acpi.Proofs.Tree.Extension
import Acpi.Proofs.Tree.Foreign
import Acpi.Proofs.Tree.Lineage
import Acpi.Proofs.Tree.Pruning
import Acpi.Proofs.Tree.Relative
import Acpi.Proofs.Tree.Safety
