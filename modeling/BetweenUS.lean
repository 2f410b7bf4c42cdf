import BetweenUS.Runs.Machine
import BetweenUS.Combine.Publishers
import BetweenUS.Rogin.LoginViewModel
import BetweenUS.Manager.FBUserDatabaseTheorems
import BetweenUS.Manager.AuthManagerTheorems
import BetweenUS.Rogin.SignUpForm
import BetweenUS.Rogin.SignUpFormTheorems
import BetweenUS.Rogin.SignUpFlow
import BetweenUS.Rogin.SignUpFlowTheorems
import BetweenUS.Rogin.SubmissionTheorems
import BetweenUS.Application.App
import BetweenUS.Application.StepTheorems
import BetweenUS.Application.RequestTheorems
import BetweenUS.Application.Ledger
import BetweenUS.Application.RecordTheorems
import BetweenUS.Application.SessionTheorems
import BetweenUS.Application.CallTheorems
import BetweenUS.Regex.Semantics
import BetweenUS.Rogin.ValidatorTheorems
import BetweenUS.Rogin.SignInFormTheorems
import BetweenUS.FirebaseDatabase.FLLRBNode
import BetweenUS.FirebaseDatabase.FLLRBNodeTheorems
import BetweenUS.FirebaseDatabase.FImmutableSortedDictionary
import BetweenUS.FirebaseDatabase.FImmutableSortedDictionaryTheorems
import BetweenUS.FirebaseDatabase.FSortedDictionaryEnumerator
import BetweenUS.FirebaseDatabase.FUtilities
import BetweenUS.FirebaseDatabase.FUtilitiesTheorems
import BetweenUS.FirebaseDatabase.FNode
import BetweenUS.FirebaseDatabase.FNodeTheorems
import BetweenUS.FirebaseDatabase.FCompoundWrite
import BetweenUS.FirebaseDatabase.FCompoundWriteTheorems
import BetweenUS.FirebaseDatabase.FRepo
import BetweenUS.FirebaseDatabase.FSnapshotRoundTrip
import BetweenUS.FirebaseDatabase.UserNodes
import BetweenUS.Manager.DatabaseRefinement
import BetweenUS.Application.ProvenanceTheorems
