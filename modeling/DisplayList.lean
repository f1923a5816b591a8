import DisplayList.Main
import DisplayList.Proofs.Transparency
import DisplayList.Proofs.Rely
import DisplayList.Proofs.Slots
import DisplayList.Proofs.Cancellation
import DisplayList.Proofs.Reset
import DisplayList.Proofs.Access
import DisplayList.Proofs.Alone
import DisplayList.Proofs.Together
import DisplayList.Proofs.Storing
import DisplayList.Proofs.Fed
import DisplayList.Proofs.Producer
import DisplayList.Proofs.Reading
import DisplayList.Proofs.Trailing
import DisplayList.Proofs.Draining
import DisplayList.Proofs.Working
import DisplayList.Proofs.Submitting
import DisplayList.Proofs.Streaming
import DisplayList.Proofs.Hosting
import DisplayList.Proofs.Accounting
import DisplayList.Proofs.Queueing
import DisplayList.Proofs.Exclusion
import DisplayList.Proofs.Waking
import DisplayList.Proofs.Failing
import DisplayList.Proofs.Flat
import DisplayList.Proofs.Reuse
import DisplayList.Proofs.Sessions
import DisplayList.Proofs.Routing
import DisplayList.Proofs.Permits
import DisplayList.Proofs.Coherence
import DisplayList.Proofs.Windows
import DisplayList.Proofs.Ending
import DisplayList.Proofs.Admission
import DisplayList.Proofs.Turns
import DisplayList.Proofs.Nesting
import DisplayList.Proofs.Telling
import DisplayList.Proofs.Transferring
import DisplayList.Proofs.Checking
import DisplayList.Proofs.Resolving
import DisplayList.Proofs.Ahead
import DisplayList.Proofs.Peeking
import DisplayList.Proofs.Abreast
import DisplayList.Proofs.Aliasing
import DisplayList.Proofs.Mirroring
import DisplayList.Proofs.Halting
import DisplayList.Proofs.Onward
import DisplayList.Proofs.Forward
import DisplayList.Proofs.Outset
import DisplayList.Proofs.Quitting
import DisplayList.Proofs.Relaying
import DisplayList.Proofs.Abandoning
import DisplayList.Proofs.Accepting
import DisplayList.Proofs.Loading
import DisplayList.Proofs.Members
import DisplayList.Proofs.Configuring
import DisplayList.Proofs.Afresh
import DisplayList.Proofs.Paging
import DisplayList.Proofs.Positions
import DisplayList.Proofs.Frames
import DisplayList.Proofs.Rewinding
import DisplayList.Proofs.Finding
import DisplayList.Proofs.Answering
