import DocTree.Decimal.Layout
import DocTree.Text.Quoted
import DocTree.Value
import DocTree.Value.Equality
import DocTree.Value.Literal
import DocTree.Signature
import DocTree.Store.Surgery
import DocTree.Store.Traversal
import DocTree.Store.Consistency
import DocTree.Manifest
import DocTree.Request
import DocTree.Proofs.Edits
import DocTree.Proofs.Consistency
import DocTree.Proofs.Acceptance
import DocTree.Proofs.DocumentOrder
import DocTree.Proofs.FinishedTree
import DocTree.Proofs.ContentModel
import DocTree.Proofs.Schema
import DocTree.Proofs.Splicing
import DocTree.Proofs.Composition
import DocTree.Proofs.FirstFault
import DocTree.Proofs.Undoing
import DocTree.Proofs.RepeatedPasses
import DocTree.Proofs.Coalescing
import DocTree.Proofs.MergedRuns
import DocTree.Proofs.IndependentMoves
import DocTree.Proofs.SafeSurgery
import DocTree.Proofs.ConvertedPrefix
import DocTree.Proofs.PartialPasses
import DocTree.Proofs.CapturedPlace
import DocTree.Proofs.Diagnosis
import DocTree.Proofs.Preorder
import DocTree.Proofs.EditedWalk
import DocTree.Proofs.Isolation
import DocTree.Proofs.LoopHeads
import DocTree.Proofs.ChildPass
import DocTree.Proofs.BuildLog
