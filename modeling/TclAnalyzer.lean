import TclAnalyzer.Data.NameTree
import TclAnalyzer.Data.Multimap
import TclAnalyzer.Data.Runs
import TclAnalyzer.Analyzer.SourceLocation
import TclAnalyzer.Analyzer.Index
import TclAnalyzer.Analyzer.Proofs.DbProofs
import TclAnalyzer.Analyzer.Proofs.SitesProofs
import TclAnalyzer.Analyzer.Proofs.NamespaceProofs
import TclAnalyzer.Analyzer.Proofs.LookupProofs
import TclAnalyzer.Analyzer.Proofs.RegisterProofs
import TclAnalyzer.Analyzer.Proofs.ScanProofs
import TclAnalyzer.Analyzer.Proofs.IndexProofs
import TclAnalyzer.Analyzer.Proofs.BuildProofs
import TclAnalyzer.Analyzer.Proofs.NameProofs
import TclAnalyzer.Analyzer.Proofs.PassesProofs
import TclAnalyzer.Analyzer.Proofs.UsageProofs
import TclAnalyzer.Analyzer.Proofs.CompletionProofs
import TclAnalyzer.Analyzer.Proofs.OrderProofs
import TclAnalyzer.Analyzer.Proofs.OperationsProofs
import TclAnalyzer.Analyzer.Proofs.ParserProofs
import TclAnalyzer.Analyzer.Proofs.CallNsProofs
import TclAnalyzer.Lsp.Proofs.RequestsProofs
import TclAnalyzer.Lsp.Proofs.CommsProofs
import TclAnalyzer.Lsp.Proofs.FramingProofs
import TclAnalyzer.Lsp.Proofs.SendProofs
import TclAnalyzer.Lsp.Proofs.DocumentsProofs
import TclAnalyzer.Lsp.Proofs.ReparseProofs
import TclAnalyzer.Data.FirstMax
import TclAnalyzer.Analyzer.Proofs.TypedProofs
import TclAnalyzer.Lsp.Proofs.ChangeProofs
import TclAnalyzer.Lsp.Proofs.QuiescenceProofs
import TclAnalyzer.Lsp.Proofs.ResponseProofs
import TclAnalyzer.Lsp.Proofs.LoopProofs
import TclAnalyzer.Lsp.Proofs.BlocksProofs
import TclAnalyzer.Analyzer.Proofs.CursorProofs
import TclAnalyzer.Analyzer.Proofs.ArgumentsProofs
import TclAnalyzer.Analyzer.Proofs.FaultFreeProofs
import TclAnalyzer.Data.LastFit
import TclAnalyzer.Analyzer.Proofs.OverloadProofs
import TclAnalyzer.Analyzer.Proofs.SplittingProofs
import TclAnalyzer.Analyzer.Proofs.AbsPathProofs
import TclAnalyzer.Analyzer.Proofs.AbsoluteProofs
import TclAnalyzer.Analyzer.Proofs.EnclosingProofs
import TclAnalyzer.Analyzer.Proofs.FrameProofs
import TclAnalyzer.Analyzer.Proofs.SubstitutionProofs
import TclAnalyzer.Analyzer.Proofs.SpansProofs
import TclAnalyzer.Analyzer.Proofs.WalkProofs
import TclAnalyzer.Data.Lines
import TclAnalyzer.Analyzer.Proofs.ScopesProofs
import TclAnalyzer.Analyzer.Proofs.PrintProofs
import TclAnalyzer.Analyzer.Proofs.TokensProofs
import TclAnalyzer.Analyzer.Proofs.SpecifierProofs
import TclAnalyzer.Analyzer.Proofs.TerminationProofs
import TclAnalyzer.Data.Nesting
import TclAnalyzer.Analyzer.Proofs.ExactProofs
import TclAnalyzer.Analyzer.Proofs.RunTimeNamesProofs
import TclAnalyzer.Data.TextPosition
import TclAnalyzer.Analyzer.Proofs.LocatedProofs
import TclAnalyzer.Lsp.Proofs.PositionsProofs
import TclAnalyzer.Analyzer.Proofs.TablesProofs
import TclAnalyzer.Analyzer.Proofs.ListScanProofs
import TclAnalyzer.Analyzer.Proofs.SortedTablesProofs
import TclAnalyzer.Tool.Report
import TclAnalyzer.Tool.Proofs.ReportProofs
import TclAnalyzer.Analyzer.Proofs.ReferenceProofs
import TclAnalyzer.Tool.Proofs.LocationTextProofs
import TclAnalyzer.Tool.CommandLine
import TclAnalyzer.Tool.Proofs.CommandLineProofs
import TclAnalyzer.Lsp.Proofs.DecodingProofs
import TclAnalyzer.Lsp.Wire
import TclAnalyzer.Lsp.Proofs.WireProofs
import TclAnalyzer.Lsp.Encoding
import TclAnalyzer.Lsp.Proofs.EncodingProofs
import TclAnalyzer.Lsp.Exchange
import TclAnalyzer.Lsp.Proofs.ExchangeProofs
import TclAnalyzer.Lsp.Replies
import TclAnalyzer.Lsp.Proofs.RepliesProofs
import TclAnalyzer.Lsp.Scheduling
import TclAnalyzer.Lsp.Proofs.SchedulingProofs
import TclAnalyzer.Lsp.Proofs.InterferenceProofs
import TclAnalyzer.Analyzer.Flat
import TclAnalyzer.Analyzer.Proofs.FlatProofs
import TclAnalyzer.Analyzer.Proofs.NamespacePathsProofs
import TclAnalyzer.Analyzer.Proofs.AppendProofs
import TclAnalyzer.Tool.Proofs.AgreementProofs
import TclAnalyzer.Lsp.Proofs.UsageQueryProofs
