import TagLint.Cli.FileTable
import TagLint.Lint.Log
import TagLint.Main
import TagLint.Session
import TagLint.Proofs.Document.RoundTrip
import TagLint.Proofs.Markup.Agreement
import TagLint.Proofs.Markup.Rebase
import TagLint.Proofs.Markup.SelfClosing
import TagLint.Proofs.Markup.Blame
import TagLint.Proofs.Lint.Regions
import TagLint.Proofs.Lint.Independence
import TagLint.Proofs.Lint.LineEnds
import TagLint.Proofs.Lint.Repeats
import TagLint.Proofs.Lint.Recovery
import TagLint.Proofs.Lint.Log
import TagLint.Proofs.Tag.Parts
import TagLint.Proofs.Tag.Words
import TagLint.Proofs.Session.Lazy
import TagLint.Proofs.Session.Bounds
import TagLint.Proofs.Cli.Sources
import TagLint.Proofs.Bytes.Scan
import TagLint.Proofs.Bytes.Balance
import TagLint.Proofs.Location.Exact
import TagLint.Proofs.Bytes.Atoms
import TagLint.Proofs.Bytes.Stack
