import StableCoin.Outcome
import StableCoin.Machine
import StableCoin.Script
import StableCoin.History
import StableCoin.Ledger
import StableCoin.Flight
import StableCoin.FixedWindow
import StableCoin.Journal
import StableCoin.SwapRemove
import StableCoin.Platform
import StableCoin.AbstractStableCoin
import StableCoin.Score
import StableCoin.Effect
import StableCoin.Callback
import StableCoin.Run
import StableCoin.Supply
import StableCoin.Transfers
import StableCoin.Authority
import StableCoin.Issuers
import StableCoin.IssuerArray
import StableCoin.Minting
import StableCoin.Allowance
import StableCoin.Quota
import StableCoin.Sponsorship
import StableCoin.View
import StableCoin.Remaining
import StableCoin.Whitelist
import StableCoin.QuotaCount
import StableCoin.Pause
import StableCoin.EventLog
import StableCoin.Replay
import StableCoin.Batch
import StableCoin.EventSourcing
import StableCoin.Settings
import StableCoin.Coin
import StableCoin.Refinement
import StableCoin.Attainable
import StableCoin.Refusal
import StableCoin.Governance.Proposals
import StableCoin.Governance.Values
import StableCoin.Governance.Listing
import StableCoin.Governance.Auditors
import StableCoin.Governance.Refusal
import StableCoin.Governance.Coalition
