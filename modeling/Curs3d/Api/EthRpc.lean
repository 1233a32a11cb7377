import Curs3d.Chain.Mempool

/-!
# Raw Ethereum transactions over RPC (`src/api/eth_rpc.rs`)

`eth_sendRawTransaction` is the one place that builds an EVM transaction from its signed bytes:
it decodes them, copies the decoded fields and keeps the bytes beside the copies.
`numeric_chain_id` is the chain id a wallet is told to sign for.
-/

set_option autoImplicit false

namespace Curs3d

/-- The first four bytes of the hash, big endian, without the top bit. -/
def numericChainId (P : Primitives) (chainId : Text) : Nat :=
  ((P.sha3 chainId).take 4).foldl (fun n b => n * 256 + b.toNat) 0 % 2 ^ 31

/-- The transaction `eth_sendRawTransaction` makes of a decoded envelope. -/
def assembleRawTransaction (chainId : Text) (decoded : DecodedRawTx) (raw : Bytes) (now : Int) :
    Transaction :=
  Transaction.fromEvmRaw chainId
    (if decoded.to.isSome then .callEvmContract else .deployEvmContract) decoded.from
    (decoded.to.getD []) decoded.value decoded.nonce decoded.gasLimit decoded.maxFeePerGas
    decoded.maxPriorityFeePerGas decoded.data raw now

inductive SendRawReply where
  | txHash (hash : Bytes)
  /-- `-32602`, "expected hex-encoded raw tx". -/
  | expectedHex
  /-- `-32602`, "invalid hex". -/
  | invalidHex
  /-- `-32602`, "rlp decode: …". -/
  | rlpDecode
  /-- `-32003`, "tx rejected: …". -/
  | rejected (error : ChainError)
deriving DecidableEq, Repr

/-- `eth_sendRawTransaction` with its first parameter, if that is a string. -/
def ethSendRawTransaction (P : Primitives) (c : Blockchain) (now : Int) (param : Option Text) :
    SendRawReply × Blockchain :=
  match param with
  | none => (.expectedHex, c)
  | some rawHex =>
    let stripped := if (ascii "0x").isPrefixOf rawHex then rawHex.drop 2 else rawHex
    match hexDecode stripped with
    | none => (.invalidHex, c)
    | some raw =>
      match decodeRawEthTx P raw with
      | none => (.rlpDecode, c)
      | some decoded =>
        match c.addTransaction P now
            (assembleRawTransaction c.genesisConfig.chainId decoded raw now) with
        | (.ok (), c') => (.txHash decoded.txHash, c')
        | (.error e, c') => (.rejected e, c')

end Curs3d
