import Curs3d.Core.BlockStore
import Curs3d.Token
import Curs3d.Governance

/-!
# The database (`src/storage/mod.rs`)

The redb tables a chain writes and reads back, one field a table and one a key of the `meta`
table. A write of the source is one redb transaction: it is committed whole, in order, and survives
a crash from then on. `StorageTx` lists them, `Storage.commit` is the database after one.

A value read is the value written: bincode and redb are not modelled here (`BlockTables` has the bytes of
the block tables). `flush` does nothing in the source and is left out, and so are the tables of state sync,
which no chain reads.
-/

set_option autoImplicit false

namespace Curs3d

def CURRENT_SCHEMA_VERSION : Nat := 4

structure Storage where
  chainConfig : Option GenesisConfig := none
  finalizedHeight : Option Nat := none
  schemaVersion : Option Nat := none
  tokenRegistry : Option TokenRegistry := none
  governance : Option GovernanceState := none
  /-- The block table, and `chain_height`. -/
  blocks : BlockStorage := {}
  accounts : ByteMap AccountState := ∅
  contracts : ByteMap ContractState := ∅
  receipts : ByteMap Receipt := ∅
  epochSnapshots : HeightMap EpochSnapshot := ∅
  /-- By transaction hash. -/
  pending : ByteMap Transaction := ∅
  evidence : ByteMap EquivocationEvidence := ∅

/-- One write transaction. -/
inductive StorageTx where
  | putChainConfig (config : GenesisConfig)
  | putFinalizedHeight (height : Nat)
  | putSchemaVersion (version : Nat)
  | putTokenRegistry (registry : TokenRegistry)
  | putGovernance (governance : GovernanceState)
  | putBlock (block : Block)
  | replaceBlocks (blocks : List Block)
  | pruneBlocksBelow (retainFrom : Nat)
  | replaceAccounts (accounts : ByteMap AccountState)
  | putAccount (address : Bytes) (account : AccountState)
  | replaceContracts (contracts : ByteMap ContractState)
  | replaceReceipts (receipts : ByteMap Receipt)
  | replaceEpochSnapshots (snapshots : HeightMap EpochSnapshot)
  | replacePendingTransactions (txs : List Transaction)
  | putEvidence (evidence : EquivocationEvidence)

/-- `to_be_bytes` of a `u64`. -/
def beBytes (n : Nat) : Bytes := (Bincode.u64 n).reverse

/-- `EquivocationEvidence::key`. -/
def EquivocationEvidence.key (e : EquivocationEvidence) : Bytes :=
  beBytes e.height ++ e.validatorPublicKey

/-- `prune_blocks_below`: genesis goes with the others, and `chain_height` stays. -/
def BlockStorage.pruneBlocksBelow (s : BlockStorage) (retainFrom : Nat) : BlockStorage :=
  { s with blocks := s.blocks.filter fun height _ => retainFrom ≤ height }

/-- The pending table: later transactions of one hash replace earlier ones. -/
def pendingTable (P : Primitives) (txs : List Transaction) : ByteMap Transaction :=
  txs.foldl (fun m tx => m.insert (tx.hash P) tx) ∅

def Storage.commit (P : Primitives) (s : Storage) : StorageTx → Storage
  | .putChainConfig config => { s with chainConfig := some config }
  | .putFinalizedHeight height => { s with finalizedHeight := some height }
  | .putSchemaVersion version => { s with schemaVersion := some version }
  | .putTokenRegistry registry => { s with tokenRegistry := some registry }
  | .putGovernance governance => { s with governance := some governance }
  | .putBlock block => { s with blocks := s.blocks.putBlock block }
  | .replaceBlocks blocks => { s with blocks := s.blocks.replaceBlocks blocks }
  | .pruneBlocksBelow retainFrom => { s with blocks := s.blocks.pruneBlocksBelow retainFrom }
  | .replaceAccounts accounts => { s with accounts }
  | .putAccount address account => { s with accounts := s.accounts.insert address account }
  | .replaceContracts contracts => { s with contracts }
  | .replaceReceipts receipts => { s with receipts }
  | .replaceEpochSnapshots snapshots => { s with epochSnapshots := snapshots }
  | .replacePendingTransactions txs => { s with pending := pendingTable P txs }
  | .putEvidence evidence => { s with evidence := s.evidence.insert evidence.key evidence }

def Storage.commitAll (P : Primitives) (s : Storage) (txs : List StorageTx) : Storage :=
  txs.foldl (Storage.commit P) s

theorem length_beBytes (n : Nat) : (beBytes n).length = 8 := by
  rw [beBytes, List.length_reverse]
  rfl

/-- Evidence against different keys is stored side by side. -/
theorem EquivocationEvidence.key_ne {e e' : EquivocationEvidence}
    (h : e.validatorPublicKey ≠ e'.validatorPublicKey) : e.key ≠ e'.key := by
  intro hkey
  have hlength : (beBytes e.height).length = (beBytes e'.height).length := by
    rw [length_beBytes, length_beBytes]
  exact h (List.append_inj hkey hlength).2

end Curs3d
