import Scriptlet.Main
import Scriptlet.Proofs.Termination
import Scriptlet.Proofs.Frames
import Scriptlet.Proofs.Bookkeeping
import Scriptlet.Proofs.RoundTrip
import Scriptlet.Proofs.Layout
import Scriptlet.Proofs.Joining
import Scriptlet.Proofs.Unmentioned
import Scriptlet.Proofs.Renaming
import Scriptlet.Proofs.SpanNesting
import Scriptlet.Proofs.DumpReading
import Scriptlet.Proofs.Transcripts
import Scriptlet.Proofs.Rendering
import Scriptlet.Proofs.Failing
import Scriptlet.Proofs.Postorder
import Scriptlet.Proofs.Separation
import Scriptlet.Proofs.Resuming
import Scriptlet.Proofs.FunctionIdentity
import Scriptlet.Proofs.ScopeLookup
import Scriptlet.Proofs.HostCalls
import Scriptlet.Proofs.TailReturns
import Scriptlet.Proofs.Endings
import Scriptlet.Proofs.Redundancy
import Scriptlet.Proofs.TokenStreams
import Scriptlet.Proofs.Literals
import Scriptlet.Proofs.PlaceOrder
import Scriptlet.Proofs.Slicing
import Scriptlet.Proofs.SessionRendering
