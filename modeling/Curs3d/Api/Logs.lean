import Curs3d.Chain.Snapshot
import Curs3d.Core.Json

/-!
# Log queries (`src/api/eth_rpc.rs`, `query_logs` in `src/core/chain/mod.rs`)

`eth_getLogs` reads a filter object, refuses a range of too many blocks and looks the logs up in the index. The reader
never fails: what it cannot read it leaves out of the filter. The lookup takes the logs of the index that
match, in its order, up to a limit that stands at 100 when the filter has none.
-/

set_option autoImplicit false

namespace Curs3d

open Json U64

/-! ## The filter and the lookup -/

structure LogFilter where
  contract : Option Bytes := none
  /-- Some topic of the log. -/
  topic : Option Bytes := none
  /-- The topic at each position; `none` is a wildcard. -/
  topics : Option (List (Option Bytes)) := none
  fromBlock : Option Nat := none
  toBlock : Option Nat := none
  limit : Option Nat := none

/-- `is_none_or`. -/
def isNoneOr {α : Type} (o : Option α) (p : α → Bool) : Bool :=
  match o with
  | none => true
  | some a => p a

/-- The closure that `query_logs` filters with. -/
def LogFilter.accepts (filter : LogFilter) (entry : IndexedLogEntry) : Bool :=
  isNoneOr filter.contract (fun contract => entry.contract = contract) &&
    isNoneOr filter.topic (fun topic => entry.topics.any fun candidate => candidate = topic) &&
    isNoneOr filter.topics (fun positional => positional.zipIdx.all fun e =>
      isNoneOr e.1 fun wanted => entry.topics[e.2]?.any fun actual => actual = wanted) &&
    isNoneOr filter.fromBlock (fun fromBlock => fromBlock ≤ entry.blockHeight) &&
    isNoneOr filter.toBlock (fun toBlock => entry.blockHeight ≤ toBlock)

def Blockchain.queryLogs (c : Blockchain) (filter : LogFilter) : List IndexedLogEntry :=
  let limit := min (filter.limit.getD 100) 1000
  (c.logIndex.filter filter.accepts).take limit

/-! ## Reading values -/

/-- The characters of the Unicode property `White_Space`, in UTF-8. -/
def whitespace : List Bytes :=
  [[9], [10], [11], [12], [13], [32], [0xC2, 0x85], [0xC2, 0xA0], [0xE1, 0x9A, 0x80],
    [0xE2, 0x80, 0x80], [0xE2, 0x80, 0x81], [0xE2, 0x80, 0x82], [0xE2, 0x80, 0x83],
    [0xE2, 0x80, 0x84], [0xE2, 0x80, 0x85], [0xE2, 0x80, 0x86], [0xE2, 0x80, 0x87],
    [0xE2, 0x80, 0x88], [0xE2, 0x80, 0x89], [0xE2, 0x80, 0x8A], [0xE2, 0x80, 0xA8],
    [0xE2, 0x80, 0xA9], [0xE2, 0x80, 0xAF], [0xE2, 0x81, 0x9F], [0xE3, 0x80, 0x80]]

/-- `t` without what of `spaces` it begins with, at most `n` times. -/
def trimWith (spaces : List Bytes) : Nat → Bytes → Bytes
  | 0, t => t
  | n + 1, t => match spaces.find? fun space => space.isPrefixOf t with
    | none => t
    | some space => trimWith spaces n (t.drop space.length)

def trimStart (t : Text) : Text := trimWith whitespace t.length t

def trimEnd (t : Text) : Text :=
  (trimWith (whitespace.map List.reverse) t.length t.reverse).reverse

/-- `str::trim`. -/
def trim (t : Text) : Text := trimEnd (trimStart t)

/-- `strip_prefix`. -/
def stripStart (start t : Text) : Option Text :=
  if start.isPrefixOf t then some (t.drop start.length) else none

def parseHexAddress (value : Text) : Option Bytes :=
  let value := trim value
  let stripped := ((stripStart (ascii "0x") value).or (stripStart (ascii "CUR") value)).getD value
  match hexDecode stripped with
  | some bytes => if bytes.length = ADDRESS_LEN then some bytes else none
  | none => none

def parseHexHash (value : Text) : Option Bytes :=
  let value := trim value
  hexDecode ((stripStart (ascii "0x") value).getD value)

/-- The digits of a `u64`, most significant first, after those that make `n`. -/
def hexDigits : Nat → Text → Option Nat
  | n, [] => some n
  | n, c :: rest =>
    match hexDigit c with
    | none => none
    | some d => if n * 16 + d < modulus then hexDigits (n * 16 + d) rest else none

/-- `u64::from_str_radix(_, 16)`: a leading plus is read over. -/
def fromStrRadix16 (t : Text) : Option Nat :=
  match t with
  | [] => none
  | c :: rest =>
    if c = 43 then if rest = [] then none else hexDigits 0 rest
    else hexDigits 0 t

def parseHexQuantity (value : Text) : Option Nat :=
  let stripped := (stripStart (ascii "0x") value).getD value
  if stripped = [] then some 0 else fromStrRadix16 stripped

def resolveBlockTag (c : Blockchain) : Json → Option Nat
  | .string t =>
    if t = ascii "latest" ∨ t = ascii "pending" then some c.height
    else if t = ascii "earliest" then some 0
    else if t = ascii "finalized" ∨ t = ascii "safe" then some c.finalityTracker.finalizedHeight
    else parseHexQuantity t
  | .null => some c.height
  | _ => none

/-! ## Reading a filter -/

/-- `Map::get`. Of several fields of one name `serde_json` keeps the last. -/
def Json.get (fields : List (String × Json)) (name : String) : Option Json :=
  (fields.reverse.find? fun field => field.1 = name).map Prod.snd

/-- The addresses; those that cannot be read are passed over. -/
def addressesOf : Option Json → Option (List Bytes)
  | some (.string addr) => (parseHexAddress addr).map fun a => [a]
  | some (.array arr) =>
    let out := arr.filterMap fun item => (readText item).bind parseHexAddress
    if out = [] then none else some out
  | _ => none

/-- One position of the topics. Of alternatives the first counts. -/
def topicOf : Json → Option Bytes
  | .string hexStr => parseHexHash hexStr
  | .array (.string s :: _) => parseHexHash s
  | _ => none

def topicsOf : Option Json → Option (List (Option Bytes))
  | some (.array arr) => if arr = [] then none else some (arr.map topicOf)
  | _ => none

/-- `as_u64`. -/
def limitOf (value : Option Json) : Option Nat := value.bind readU64

/-- `parse_eth_log_filter`, which always is `Ok`. Of several addresses the last is kept. -/
def parseEthLogFilter (c : Blockchain) : Json → LogFilter
  | .object fields =>
    { contract := (addressesOf (Json.get fields "address")).bind List.getLast?
      topic := none
      topics := topicsOf (Json.get fields "topics")
      fromBlock := (Json.get fields "fromBlock").bind (resolveBlockTag c)
      toBlock := (Json.get fields "toBlock").bind (resolveBlockTag c)
      limit := limitOf (Json.get fields "limit") }
  | _ => {}

def MAX_LOG_RANGE : Nat := 10000

/-- `eth_getLogs`: the logs, or the error `-32602` with its message. -/
def ethGetLogs (c : Blockchain) (params : List Json) : Except String (List IndexedLogEntry) :=
  let parsed := parseEthLogFilter c (params.head?.getD .null)
  let lower := parsed.fromBlock.getD 0
  let upper := parsed.toBlock.getD c.height
  if lower ≤ upper ∧ MAX_LOG_RANGE < upper - lower then
    let blocks := satAdd (upper - lower) 1
    .error s!"log range too wide: {blocks} blocks (max {MAX_LOG_RANGE})"
  else .ok (c.queryLogs parsed)

end Curs3d
