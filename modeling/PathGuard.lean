import PathGuard.Exchange
import PathGuard.Json.Reader
import PathGuard.Main
import PathGuard.Proofs.CommandLine.Decisions
import PathGuard.Proofs.Glob.Alphabets
import PathGuard.Proofs.Glob.Balance
import PathGuard.Proofs.Glob.Depth
import PathGuard.Proofs.Glob.Expansion
import PathGuard.Proofs.Glob.Segmentwise
import PathGuard.Proofs.Guard.ForeignIncludes
import PathGuard.Proofs.Guard.Refusals
import PathGuard.Proofs.Guard.RuleSets
import PathGuard.Proofs.Guard.Spelling
import PathGuard.Proofs.Guard.Subtrees
import PathGuard.Proofs.Path.Canonical
import PathGuard.Proofs.Path.Inside
import PathGuard.Proofs.Rules.Descent
import PathGuard.Proofs.Rules.Document
import PathGuard.Proofs.Session.Reload
import PathGuard.Proofs.Session.Writes
import PathGuard.Proofs.Settings.Places
import PathGuard.Proofs.Settings.Precedence
import PathGuard.Session
import PathGuard.Proofs.Session.Receivers
import PathGuard.Proofs.Session.Shown
import PathGuard.Proofs.Json.Reading
import PathGuard.Proofs.CommandLine.Output
import PathGuard.Proofs.Exchange
