import ReadThrough.CacheScript.Meeting
import ReadThrough.Config.Setting
import ReadThrough.System.Run
import ReadThrough.TableScript.Run
import ReadThrough.Proofs.Entries
import ReadThrough.Proofs.WriteBack.Chain
import ReadThrough.Proofs.WriteBack.Batches
import ReadThrough.Proofs.WriteBack.Ledger
import ReadThrough.Proofs.WriteBack.Ownership
import ReadThrough.Proofs.WriteBack.Membership
import ReadThrough.Proofs.WriteBack.Conservation
import ReadThrough.Proofs.Names
import ReadThrough.Proofs.Table.Walks
import ReadThrough.Proofs.Cache.Parts
import ReadThrough.Proofs.Runs.Calls
import ReadThrough.Proofs.Runs.Systems
import ReadThrough.Proofs.Runs.History
import ReadThrough.Proofs.WriteBack.Survival
import ReadThrough.Proofs.WriteBack.Unseen
import ReadThrough.Proofs.Table.Chains
import ReadThrough.Proofs.Table.Slots
import ReadThrough.Proofs.Table.Growth
import ReadThrough.Proofs.Table.Tables
import ReadThrough.Proofs.Table.Recency
import ReadThrough.Proofs.Table.Contents
import ReadThrough.Proofs.Table.Operations
import ReadThrough.Proofs.Table.WellFormed
import ReadThrough.Proofs.Table.Slab
import ReadThrough.Proofs.Table.Refinement
import ReadThrough.Proofs.Cache.Calm
import ReadThrough.Proofs.Cache.Guarded
import ReadThrough.Proofs.Runs.Keys
import ReadThrough.Proofs.Runs.Bystanders
import ReadThrough.Proofs.Loads.Phases
import ReadThrough.Proofs.Loads.Once
import ReadThrough.Proofs.Runs.Inspections
import ReadThrough.Proofs.Runs.Tenants
import ReadThrough.Proofs.Updates.Register
import ReadThrough.Proofs.Updates.Chain
import ReadThrough.Proofs.WriteBack.Unwritten
import ReadThrough.Proofs.WriteBack.Reads
import ReadThrough.Proofs.WriteBack.Readable
import ReadThrough.Proofs.Runs.Owners
import ReadThrough.Proofs.WriteBack.Exactness
import ReadThrough.Proofs.Runs.Dealings
import ReadThrough.Proofs.WriteBack.Unchanged
import ReadThrough.Proofs.WriteBack.Revival
import ReadThrough.Proofs.Runs.Solo
import ReadThrough.Proofs.Expiry.Dates
import ReadThrough.Proofs.Expiry.Courses
import ReadThrough.Proofs.Expiry.Deposits
import ReadThrough.Proofs.Expiry.Found
import ReadThrough.Proofs.Expiry.Decisions
import ReadThrough.Proofs.Table.Tours
import ReadThrough.Proofs.Table.Handles
import ReadThrough.Proofs.Recency.Order
import ReadThrough.Proofs.Recency.Uses
import ReadThrough.Proofs.Recency.Latest
import ReadThrough.Proofs.Recency.Idle
import ReadThrough.Proofs.Recency.Held
import ReadThrough.Proofs.Loads.Panics
import ReadThrough.Proofs.Loads.Reservations
import ReadThrough.Proofs.Loads.Records
import ReadThrough.Proofs.Loads.Waits
import ReadThrough.Proofs.Recency.Repairs
import ReadThrough.Proofs.Departures.Homes
import ReadThrough.Proofs.Departures.Departed
import ReadThrough.Proofs.Departures.Drains
import ReadThrough.Proofs.Departures.StaysAway
import ReadThrough.Proofs.Table.Trims
import ReadThrough.Proofs.Recency.Evictions
import ReadThrough.Proofs.Retries.Residents
import ReadThrough.Proofs.Retries.FirstTry
import ReadThrough.Proofs.Counters.Books
import ReadThrough.Proofs.Counters.Balance
import ReadThrough.Proofs.Table.Questions
import ReadThrough.Proofs.Table.Admissions
import ReadThrough.Proofs.Table.StaleHandles
import ReadThrough.Proofs.Table.Refusals
import ReadThrough.Proofs.Recency.Refusals
import ReadThrough.Proofs.WriteBack.GivenBack
import ReadThrough.Proofs.Updates.Failures
import ReadThrough.Proofs.Loads.Rejections
import ReadThrough.Proofs.Table.Orders
import ReadThrough.Proofs.Table.Twins
import ReadThrough.Proofs.Table.Custody
import ReadThrough.Proofs.Table.Headroom
import ReadThrough.Proofs.Table.Pinches
import ReadThrough.Proofs.Table.Rebuilds
import ReadThrough.Proofs.Table.Sequences
import ReadThrough.Proofs.Table.Splits
