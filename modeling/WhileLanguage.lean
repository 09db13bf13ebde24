import WhileLanguage.BigStep.Evaluation
import WhileLanguage.Compiled
import WhileLanguage.SmallStep.Trace
import WhileLanguage.Proofs.Agreement.Commands
import WhileLanguage.Proofs.Agreement.Arithmetic
import WhileLanguage.Proofs.Agreement.Expressions
import WhileLanguage.Proofs.BigStep.Sessions
import WhileLanguage.Proofs.SmallStep.Commands
import WhileLanguage.Proofs.SmallStep.Expressions
import WhileLanguage.Proofs.SmallStep.Frames
import WhileLanguage.Proofs.SmallStep.Steps
import WhileLanguage.Proofs.SmallStep.Sizes
import WhileLanguage.Proofs.SmallStep.Limits
import WhileLanguage.Proofs.SmallStep.Histories
import WhileLanguage.Proofs.Kinds.Expressions
import WhileLanguage.Proofs.Kinds.Faults
import WhileLanguage.Proofs.Kinds.Soundness
import WhileLanguage.Proofs.SmallStep.Traces
import WhileLanguage.Proofs.Regrouping
import WhileLanguage.Proofs.Syntax
import WhileLanguage.Proofs.Text.Reader
import WhileLanguage.Proofs.Text.Pairs
import WhileLanguage.Proofs.Text.Brackets
import WhileLanguage.Proofs.Text.Expressions
import WhileLanguage.Proofs.Text.States
import WhileLanguage.Proofs.Text.Grammar
import WhileLanguage.Proofs.Agreement.Regrouping
import WhileLanguage.Proofs.Agreement.Costs
import WhileLanguage.Proofs.Termination
import WhileLanguage.Proofs.Matching
import WhileLanguage.Proofs.Names.Assignments
import WhileLanguage.Proofs.Names.Correspondence
import WhileLanguage.Proofs.Names.Noninterference
import WhileLanguage.Proofs.Names.Opacity
import WhileLanguage.Proofs.Agreement.Phrases
import WhileLanguage.Proofs.Agreement.Contexts
import WhileLanguage.Proofs.Agreement.Loops
import WhileLanguage.Proofs.Names.Independence
import WhileLanguage.Proofs.Agreement.LoopFree
import WhileLanguage.Proofs.SmallStep.FramedTraces
import WhileLanguage.Proofs.SmallStep.Guards
import WhileLanguage.Proofs.Agreement.Faults
import WhileLanguage.Proofs.Environments.Versions
