import Puremake.UpWord.Basic
import Puremake.UpWord.Blind
import Puremake.UpWord.Above
import Puremake.Fold.Basic
import Puremake.Fold.Ends
import Puremake.Emit.Basic
import Puremake.Search.Basic
import Puremake.Greedy.Basic
import Puremake.Grove.Basic
import Puremake.Lua.Str
import Puremake.Lua.Table
import Puremake.Lua.Pattern
import Puremake.Lua.Malformed
import Puremake.Lua.Glob
import Puremake.Path.Reading
import Puremake.Path.Normalize
import Puremake.Path.Meaning
import Puremake.Path.Relative
import Puremake.Path.Leads
import Puremake.Path.Names
import Puremake.Path.Extensions
import Puremake.Path.Below
import Puremake.Path.Here
import Puremake.Path.Absolute
import Puremake.Path.Join
import Puremake.Path.Rebase
import Puremake.Bake.Fields
import Puremake.Bake.Terms
import Puremake.Bake.Keywords
import Puremake.Bake.Required
import Puremake.Bake.Merge
import Puremake.Bake.Platforms
import Puremake.Bake.Postprocess
import Puremake.Bake.Lockstep
import Puremake.Bake.Independence
import Puremake.Bake.Names
import Puremake.Bake.Script
import Puremake.Bake.Brackets
import Puremake.Bake.Total
import Puremake.Bake.Progress
import Puremake.Bake.Session
import Puremake.Bake.Walk
import Puremake.Bake.Targets
import Puremake.Bake.Objdirs
import Puremake.Bake.Lists
import Puremake.Bake.Merges
import Puremake.Bake.FileSettings
import Puremake.Bake.Usage
import Puremake.Bake.Copy
import Puremake.Bake.Buildconfigs
import Puremake.Bake.Owners
import Puremake.Api.Records
import Puremake.Api.Session
import Puremake.Api.Usage
import Puremake.Action.Objects
import Puremake.Action.Links
import Puremake.Action.Queries
import Puremake.Action.Harmless
import Puremake.Action.Siblings
import Puremake.Vstudio.Solution
import Puremake.Vstudio.Filters
import Puremake.Make.Files
import Puremake.Make.Selection
import Puremake.Make.Escape
import Puremake.Make.Rules
import Puremake.Action.Generate
import Puremake.Action.Clean
import Puremake.Shell.Basic
import Puremake.Shell.Quoted
import Puremake.Xcode.Configs
import Puremake.Xcode.Script
import Puremake.Xcode.Groups
import Puremake.Xcode.Localize
import Puremake.Xcode.Untidy
import Puremake.Xcode.Projtree
import Puremake.Xcode.Folders
import Puremake.Xcode.BuildIds
import Puremake.Xcode.Phases
import Puremake.Escape.Basic
import Puremake.Lua.Nested
import Puremake.Xml.Escape
import Puremake.Xml.Attribute
import Puremake.Xml.Reader
import Puremake.Host.Originals
import Puremake.Tree.Basic
import Puremake.Tree.Represents
import Puremake.Tree.Growth
import Puremake.Tree.Source
import Puremake.Tree.Vpaths
import Puremake.Tree.Stands
import Puremake.Tree.Levels
import Puremake.Tree.Built
import Puremake.Tree.Traverse
import Puremake.Tree.Visits
import Puremake.Tree.Printing
import Puremake.Os.Disk
import Puremake.Os.Match
import Puremake.Os.Rmdir
import Puremake.Lua.Listset
import Puremake.Bake.Scalars
import Puremake.Bake.Equipped
import Puremake.Bake.Excludes
import Puremake.Ide.Lines
import Puremake.Ide.Others
import Puremake.Ide.Vcproj
import Puremake.Ide.Vcxproj
import Puremake.Ide.Csproj
import Puremake.Ide.Leaves
import Puremake.Ide.Sections
import Puremake.Ide.Names
import Puremake.Split.Basic
import Puremake.Lua.Explode
import Puremake.Make.Settings
import Puremake.Api.Uuid
import Puremake.Path.Parse
import Puremake.Path.Decompose
import Puremake.Ide.Dependencies
import Puremake.Tools.Flags
import Puremake.Ide.Markup
import Puremake.Tree.Labels
import Puremake.Ide.Codelite
import Puremake.Bake.Longnames
import Puremake.Ide.Matrix
import Puremake.Ide.Fragment
import Puremake.Ide.Codeblocks
import Puremake.Ide.CodeblocksWorkspace
import Puremake.Fuel.Basic
import Puremake.Api.Accessors
import Puremake.Api.Checks
import Puremake.Api.Filelists
import Puremake.Scoped.Basic
import Puremake.Host.Cmdline
import Puremake.Host.Registry
import Puremake.Host.Validate
import Puremake.Host.Main
import Puremake.Host.Progress
import Puremake.Host.Dofile
import Puremake.Choice.Basic
import Puremake.Bake.Uniquedirs
