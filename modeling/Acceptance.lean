import Acceptance.Main
import Acceptance.Proofs.FailedGroups
import Acceptance.Proofs.DocStrings
import Acceptance.Proofs.SharedNames
import Acceptance.Proofs.JoinedTexts
import Acceptance.Proofs.QuotedHoles
import Acceptance.Proofs.WrittenGroups
import Acceptance.Proofs.PlanFiles
import Acceptance.Proofs.GreenRuns
import Acceptance.Proofs.LiteralValues
import Acceptance.Proofs.UsableNames
import Acceptance.Proofs.TestNames
import Acceptance.Proofs.Outline
import Acceptance.Proofs.LiteralNames
