import Stencil.Proofs.Declaration.FirstFlaw
import Stencil.Proofs.Declaration.Writable
import Stencil.Proofs.Document.Lines
import Stencil.Proofs.Envelope.LineByLine
import Stencil.Proofs.Render.Settled
import Stencil.Proofs.Render.Strict
import Stencil.Proofs.Scan.Lenient
import Stencil.Proofs.Scan.Recovery
import Stencil.Proofs.Scan.Unread
import Stencil.Proofs.Session
import Stencil.Proofs.Source.JsonObject
import Stencil.Proofs.Declaration.Restated
import Stencil.Proofs.Envelope.Reaches
import Stencil.Proofs.Scan.Joined
import Stencil.Proofs.Declaration.Identity
import Stencil.Proofs.Render.LineFeeds
import Stencil.Proofs.Render.Dependence
import Stencil.Proofs.Render.Merged
import Stencil.Proofs.Document.Spans
import Stencil.Proofs.Number.Grid
import Stencil.Proofs.Number.Numeral
import Stencil.Proofs.Number.Rounding
import Stencil.Proofs.Property.Ways
import Stencil.Proofs.Literal.Numbers
import Stencil.Proofs.Envelope.Again
import Stencil.Proofs.Render.Pending
