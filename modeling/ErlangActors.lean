import ErlangActors.Proof.Escalation
import ErlangActors.Proof.Teardown
import ErlangActors.Proof.Isolation
import ErlangActors.Proof.StopFirst
import ErlangActors.Proof.Release
import ErlangActors.Proof.Deadlines
import ErlangActors.Proof.Flood
import ErlangActors.Proof.Demonitor
import ErlangActors.Proof.Callers
import ErlangActors.Proof.OneFailure
import ErlangActors.Proof.Work
import ErlangActors.Proof.Hierarchy
import ErlangActors.Proof.Rounds
import ErlangActors.Proof.Detection
import ErlangActors.Proof.Drain
import ErlangActors.Proof.Registry
