import TemplateTree.Grammar.Derivation
import TemplateTree.Proofs.Containment
import TemplateTree.Proofs.Grammar.Commitment
import TemplateTree.Proofs.Grammar.Extent
import TemplateTree.Proofs.Grammar.PairLookahead
import TemplateTree.Proofs.Grammar.PathExtent
import TemplateTree.Proofs.Grammar.Prediction
import TemplateTree.Proofs.Grammar.Termination
import TemplateTree.Proofs.KindSet
import TemplateTree.Proofs.Report
import TemplateTree.Proofs.Retention
import TemplateTree.Proofs.Session.Nesting
import TemplateTree.Rose.Significant
import TemplateTree.Script.Outcome
import TemplateTree.Session.Checked
import TemplateTree.Session.Draft
import TemplateTree.Session.Steering
import TemplateTree.Tree.Attempts
import TemplateTree.Tree.Navigation
import TemplateTree.Tree.Shape
