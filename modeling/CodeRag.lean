import CodeRag.Lib.Strings
import CodeRag.Lib.Except
import CodeRag.Lib.Parallel
import CodeRag.Storage.DuckDB
import CodeRag.Storage.Columns
import CodeRag.Core.Paths
import CodeRag.Parsers.Languages
import CodeRag.Parsers.TreeSitter
import CodeRag.Services.Sync
import CodeRag.Services.Session
import CodeRag.Parsers.Theorems.TreeSitter
import CodeRag.Parsers.Theorems.UniqueIds
import CodeRag.Storage.Theorems.DuckDB
import CodeRag.Storage.Theorems.Sound
import CodeRag.Storage.Theorems.Settle
import CodeRag.Storage.Theorems.Search
import CodeRag.Storage.Theorems.ReadBack
import CodeRag.Storage.Theorems.Owned
import CodeRag.Storage.Theorems.Agreement
import CodeRag.Storage.Theorems.AllOrNothing
import CodeRag.Services.Theorems.SyncFile
import CodeRag.Services.Theorems.Freshness
import CodeRag.Services.Theorems.ParseFailure
import CodeRag.Services.Theorems.Collection
import CodeRag.Services.Theorems.Claims
import CodeRag.Services.Theorems.SyncAlone
import CodeRag.Services.Theorems.Postcondition
import CodeRag.Discovery.Theorems.Traversal
import CodeRag.Services.Theorems.Migration
import CodeRag.Api.Theorems.Lifetime
import CodeRag.Api.Theorems.Progress
import CodeRag.Intelligence.Theorems.OpenaiEmbedder
import CodeRag.Discovery.Theorems.CSharp
import CodeRag.Discovery.Theorems.JavaScript
import CodeRag.Discovery.Theorems.Rust
import CodeRag.Services.Theorems.Dependencies
import CodeRag.Services.Theorems.Config
import CodeRag.Services.Theorems.Scope
import CodeRag.Services.Theorems.Tidy
import CodeRag.Discovery.Theorems.Report
import CodeRag.Services.Theorems.Confluence
import CodeRag.Services.Theorems.Unlost
import CodeRag.Storage.Theorems.Transaction
import CodeRag.Storage.Theorems.Recorded
import CodeRag.Services.Theorems.Recorded
import CodeRag.Lib.Updates
import CodeRag.Services.Theorems.Converge
import CodeRag.Services.Theorems.Kept
import CodeRag.Services.Theorems.Summaries
import CodeRag.Parsers.Theorems.Renaming
import CodeRag.Services.Theorems.Stocked
