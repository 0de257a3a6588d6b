import Clamm.Currency.Token
import Clamm.Keccak

/-!
# The address of a pool

A pool contract is deployed at an address fixed by the factory that deploys it, its pair of tokens,
its fee, and the hash of its creation code. The salt of the deployment is the hash of the two token
addresses in order and the fee, each as a 32-byte word.
-/

namespace Clamm

/-- The factory whose pools are addressed unless another is given. -/
def defaultFactory : Address := 0x1F98431c8aD98523631AE4a59f267346ea31F984

/-- The hash of the creation code of that factory's pools. -/
def defaultInitCodeHash : BitVec 256 :=
  0xe34f199b19b2b4f47f68442619d555527d244f78a3297ea89325f843f87b8b54

/-- The address of a contract that `deployer` creates with a salt. -/
def create2 (deployer : Address) (salt initCodeHash : BitVec 256) : Address :=
  (Keccak.hash (0xff :: Keccak.bytes deployer ++ Keccak.bytes salt ++ Keccak.bytes initCodeHash)
    ).setWidth 160

/-- What the salt of a pool is the hash of. -/
def poolKey (token0 token1 : Address) (fee : Nat) : List UInt8 :=
  Keccak.bytes (token0.setWidth 256) ++ Keccak.bytes (token1.setWidth 256) ++
    Keccak.bytes (BitVec.ofNat 256 fee)

/-- The address of the pool of an ordered pair of tokens. -/
def pairAddress (factory token0 token1 : Address) (fee : Nat) (initCodeHash : BitVec 256) :
    Address :=
  create2 factory (Keccak.hash (poolKey token0 token1 fee)) initCodeHash

/-- The address of the pool of two tokens, given in either order. -/
def poolAddress (factory : Address) (a b : Token) (fee : Nat) (initCodeHash : BitVec 256) :
    Except Error Address := do
  let ⟨(token0, token1), _⟩ ← a.pair b
  return pairAddress factory token0.address token1.address fee initCodeHash

end Clamm
