import DocumentQuery.Engine
import DocumentQuery.Proofs.Grammar
import DocumentQuery.Proofs.TokenStream
import DocumentQuery.SelectorEquality
import DocumentQuery.SelectorText
import DocumentQuery.Proofs.GrammarReading
import DocumentQuery.Proofs.ArgumentNesting
import DocumentQuery.Proofs.IntegerText
import DocumentQuery.Proofs.TrimmedText
import DocumentQuery.Proofs.SelectorShape
import DocumentQuery.Proofs.PrintedTokens
import DocumentQuery.Proofs.PrintedReading
import DocumentQuery.Proofs.PrintedLayout
import DocumentQuery.Proofs.PrintedNesting
import DocumentQuery.Proofs.PrintedContext
import DocumentQuery.Proofs.PrintedEdges
import DocumentQuery.Proofs.TrimmedSelectors
import DocumentQuery.Proofs.DerivedSelectors
import DocumentQuery.Proofs.RoundTrip
import DocumentQuery.Proofs.DocumentLinks
import DocumentQuery.Proofs.DocumentRelations
import DocumentQuery.Proofs.SelectorMeaning
import DocumentQuery.Proofs.QueryAnswers
import DocumentQuery.Proofs.ForwardSearch
import DocumentQuery.Proofs.SubjectSearch
import DocumentQuery.Proofs.SearchAgreement
import DocumentQuery.Proofs.ElementChains
import DocumentQuery.Proofs.NestedTests
import DocumentQuery.Proofs.TokenDerivations
import DocumentQuery.Proofs.SelectorDepth
import DocumentQuery.Proofs.NestingLimit
import DocumentQuery.Proofs.TreeOrder
import DocumentQuery.Proofs.DocumentPlaces
import DocumentQuery.Proofs.OrderedResults
import DocumentQuery.Proofs.ParsedSelectors
import DocumentQuery.Proofs.NestedReading
import DocumentQuery.Proofs.LinkAgreement
import DocumentQuery.Proofs.TokenPlaces
import DocumentQuery.Proofs.TreeWalk
import DocumentQuery.Proofs.TokenShape
import DocumentQuery.Proofs.JoinedText
import DocumentQuery.Proofs.JoinedSelectors
import DocumentQuery.Proofs.RepeatedRuns
import DocumentQuery.Proofs.ErrorPlaces
import DocumentQuery.Proofs.WarningRuns
import DocumentQuery.Proofs.QueryEffects
import DocumentQuery.Proofs.PositionTests
import DocumentQuery.Proofs.PositionShorthands
import DocumentQuery.Proofs.SearchScope
import DocumentQuery.Proofs.ChainDraws
import DocumentQuery.Proofs.ContainedText
import DocumentQuery.Proofs.BareValues
import DocumentQuery.Proofs.ReadingEnds
import DocumentQuery.Proofs.ComparedValues
import DocumentQuery.Proofs.NamespaceForms
import DocumentQuery.Proofs.Abbreviations
import DocumentQuery.Proofs.TextContent
