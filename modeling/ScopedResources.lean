import ScopedResources.Property.Store
import ScopedResources.Registry.Creation
import ScopedResources.Service.Inquiry
import ScopedResources.Service.Keeper
import ScopedResources.Service.Network
import ScopedResources.Service.Script
import ScopedResources.Settings.Json
import ScopedResources.Proofs.FirstOccurrences
import ScopedResources.Proofs.Registry.Listing
import ScopedResources.Proofs.Lifetimes
import ScopedResources.Proofs.Registry.Creation
import ScopedResources.Proofs.Registry.Session
import ScopedResources.Proofs.Service.Handling
import ScopedResources.Proofs.Service.Turns
import ScopedResources.Proofs.Service.Run
import ScopedResources.Proofs.Service.Accounts
import ScopedResources.Proofs.Service.Linear
import ScopedResources.Proofs.Registry.Agreement
import ScopedResources.Proofs.Registry.Names
import ScopedResources.Proofs.Service.ChangeLog
import ScopedResources.Proofs.Service.CheckedNames
import ScopedResources.Proofs.Service.Listings
import ScopedResources.Proofs.Service.Hoarding
import ScopedResources.Proofs.Registry.Privacy
import ScopedResources.Proofs.Settings.RoundTrip
import ScopedResources.Proofs.Service.Subscriptions
import ScopedResources.Proofs.Registry.FreeNames
import ScopedResources.Proofs.Registry.Suggestions
import ScopedResources.Proofs.Service.Closing
import ScopedResources.Proofs.Service.Rehearsal
import ScopedResources.Proofs.Service.Mismatch
import ScopedResources.Proofs.Service.Verification
import ScopedResources.Proofs.Property.Assignments
import ScopedResources.Proofs.Property.Descriptions
import ScopedResources.Proofs.Service.Holders
import ScopedResources.Proofs.Registry.Pruning
import ScopedResources.Proofs.Service.Upkeep
import ScopedResources.Proofs.Registry.Search
import ScopedResources.Proofs.Registry.Verdicts
import ScopedResources.Proofs.Registry.Precedence
import ScopedResources.Proofs.Service.Inquiries
import ScopedResources.Proofs.Registry.Decisions
import ScopedResources.Proofs.Property.Offers
import ScopedResources.Proofs.Settings.Spellings
import ScopedResources.Proofs.Registry.Representation
import ScopedResources.Proofs.Registry.Independence
import ScopedResources.Proofs.Identity
