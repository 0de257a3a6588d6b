import Clamm.Bits
import Clamm.Fraction.Parts
import Clamm.Position.Slippage
import Clamm.SqrtPrice.Step
import Clamm.Tick.InPlace
import Clamm.Tick.Sorted
import Clamm.Trade.Assembly
import Clamm.Trade.InPlace
import Clamm.Trade.Search
import Clamm.Word.Flags
import Clamm.Word.Ladder
import Clamm.Word.Step
import Clamm.Proofs.Grid.Exponential
import Clamm.Proofs.Grid.Logarithm
import Clamm.Proofs.Grid.Inverse
import Clamm.Proofs.Grid.Usable
import Clamm.Proofs.Currency.ClosestTick
import Clamm.Proofs.Currency.Chains
import Clamm.Proofs.Currency.Encoding
import Clamm.Proofs.Step.Amounts
import Clamm.Proofs.Step.Sound
import Clamm.Proofs.Step.Settled
import Clamm.Proofs.Step.Total
import Clamm.Proofs.Ticks.Source
import Clamm.Proofs.Ticks.Writes
import Clamm.Proofs.Ticks.Flagged
import Clamm.Proofs.Ticks.Answers
import Clamm.Proofs.Ticks.Repeats
import Clamm.Proofs.Ticks.Nearest
import Clamm.Proofs.Ticks.Contents
import Clamm.Proofs.Ticks.Flips
import Clamm.Proofs.Swap.Advance
import Clamm.Proofs.Swap.Session
import Clamm.Proofs.Swap.Liquidity
import Clamm.Proofs.Swap.Netting
import Clamm.Proofs.Swap.Reserves
import Clamm.Proofs.Swap.NoProfit
import Clamm.Proofs.Swap.Termination
import Clamm.Proofs.Swap.Accounting
import Clamm.Proofs.Swap.Total
import Clamm.Proofs.Step.Compare
import Clamm.Proofs.Swap.Monotone
import Clamm.Proofs.Ticks.Steady
import Clamm.Proofs.Swap.Splitting
import Clamm.Proofs.Swap.Sources
import Clamm.Proofs.Swap.SearchedWords
import Clamm.Proofs.Swap.Snapshots
import Clamm.Proofs.Swap.Quotes
import Clamm.Proofs.Trade.Ranking
import Clamm.Proofs.Trade.Insertions
import Clamm.Proofs.Trade.Walks
import Clamm.Proofs.Trade.Search
import Clamm.Proofs.Position.Amounts
import Clamm.Proofs.Position.Funding
import Clamm.Proofs.Position.Held
import Clamm.Proofs.Position.Slippage
import Clamm.Proofs.Position.Band
import Clamm.Proofs.Position.Minting
import Clamm.Proofs.Position.Shortfall
import Clamm.Proofs.Trade.Spot
import Clamm.Proofs.Swap.Requotes
import Clamm.Proofs.Swap.NegativeSales
import Clamm.Proofs.Word.Flags
import Clamm.Proofs.Word.Ladder
import Clamm.Proofs.Word.Landing
import Clamm.Proofs.Word.Amounts
import Clamm.Proofs.Word.Moves
import Clamm.Proofs.Trade.Routes
import Clamm.Proofs.Trade.Addresses
import Clamm.Proofs.Trade.Legs
import Clamm.Proofs.Trade.Tolerance
