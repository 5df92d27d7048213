import ArenaScheme.Main
import ArenaScheme.Proofs.Additions
import ArenaScheme.Proofs.Agreement
import ArenaScheme.Proofs.AllocationPolicy
import ArenaScheme.Proofs.Applications
import ArenaScheme.Proofs.ArgumentBinding
import ArenaScheme.Proofs.Assignment
import ArenaScheme.Proofs.BuiltForms
import ArenaScheme.Proofs.Bytes
import ArenaScheme.Proofs.CallMeanings
import ArenaScheme.Proofs.CallPositions
import ArenaScheme.Proofs.Changes
import ArenaScheme.Proofs.Collection.Isomorphism
import ArenaScheme.Proofs.Collection.Marking
import ArenaScheme.Proofs.Collection.Moving
import ArenaScheme.Proofs.Collection.Planning
import ArenaScheme.Proofs.Collection.Reclaiming
import ArenaScheme.Proofs.Constructing
import ArenaScheme.Proofs.Construction
import ArenaScheme.Proofs.Contents
import ArenaScheme.Proofs.Copies
import ArenaScheme.Proofs.Correspondence
import ArenaScheme.Proofs.DataReading
import ArenaScheme.Proofs.Definitional
import ArenaScheme.Proofs.Depiction
import ArenaScheme.Proofs.Evaluation
import ArenaScheme.Proofs.Expansion
import ArenaScheme.Proofs.Fences
import ArenaScheme.Proofs.FirstCall
import ArenaScheme.Proofs.FormMeanings
import ArenaScheme.Proofs.FormScans
import ArenaScheme.Proofs.FrameLinks
import ArenaScheme.Proofs.FrameSteps
import ArenaScheme.Proofs.Frames
import ArenaScheme.Proofs.Fuel
import ArenaScheme.Proofs.HeapRuns
import ArenaScheme.Proofs.HeapText
import ArenaScheme.Proofs.Interning
import ArenaScheme.Proofs.Layout
import ArenaScheme.Proofs.Lexical
import ArenaScheme.Proofs.LexicalScope
import ArenaScheme.Proofs.Likeness
import ArenaScheme.Proofs.ListLengths
import ArenaScheme.Proofs.Machines
import ArenaScheme.Proofs.Making
import ArenaScheme.Proofs.Matching
import ArenaScheme.Proofs.NumberText
import ArenaScheme.Proofs.Numerals
import ArenaScheme.Proofs.Objects
import ArenaScheme.Proofs.Outlines
import ArenaScheme.Proofs.Ownership
import ArenaScheme.Proofs.ParameterLists
import ArenaScheme.Proofs.Parsing
import ArenaScheme.Proofs.Permanence
import ArenaScheme.Proofs.PortraitSteps
import ArenaScheme.Proofs.Portraits
import ArenaScheme.Proofs.PrimitiveMeanings
import ArenaScheme.Proofs.Primitives
import ArenaScheme.Proofs.Printing
import ArenaScheme.Proofs.QuotedData
import ArenaScheme.Proofs.ReadBack
import ArenaScheme.Proofs.ReaderRefinement
import ArenaScheme.Proofs.Reading
import ArenaScheme.Proofs.ReservedNames
import ArenaScheme.Proofs.Room
import ArenaScheme.Proofs.RootStack
import ArenaScheme.Proofs.Runs
import ArenaScheme.Proofs.Scanning
import ArenaScheme.Proofs.SceneSteps
import ArenaScheme.Proofs.Scenes
import ArenaScheme.Proofs.Scopes
import ArenaScheme.Proofs.Sessions
import ArenaScheme.Proofs.Shown
import ArenaScheme.Proofs.Soundness
import ArenaScheme.Proofs.SpecialForms
import ArenaScheme.Proofs.StartUp
import ArenaScheme.Proofs.Steps
import ArenaScheme.Proofs.StoreConstructors
import ArenaScheme.Proofs.StoreOperations
import ArenaScheme.Proofs.StoreView
import ArenaScheme.Proofs.Success
import ArenaScheme.Proofs.SymbolTable
import ArenaScheme.Proofs.Symbols
import ArenaScheme.Proofs.Trampoline
import ArenaScheme.Proofs.Trees
import ArenaScheme.Proofs.TypedStore
import ArenaScheme.Proofs.Unfolding
import ArenaScheme.Proofs.Updates
import ArenaScheme.Proofs.Values
import ArenaScheme.Proofs.Variables
import ArenaScheme.Proofs.WellFormed
import ArenaScheme.Proofs.Words
import ArenaScheme.Proofs.Writing
