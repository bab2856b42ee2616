import Fidelix.Text.Words
import Fidelix.Text.Bre
import Fidelix.Text.Shell
import Fidelix.Files.Tree
import Fidelix.Files.Resolve
import Fidelix.Files.Glob
import Fidelix.Files.Utilities
import Fidelix.Files.Frame
import Fidelix.Files.Extract
import Fidelix.Pkgtools.System
import Fidelix.Pkgtools.Removepkg
import Fidelix.Pkgtools.Installpkg
import Fidelix.Pkgtools.Upgradepkg
import Fidelix.Pkgtools.Pkgtool
import Fidelix.Pkgtools.Makepkg
import Fidelix.Pkgtools.Naming
import Fidelix.Pkgtools.Operands
import Fidelix.Pkgtools.NewFile
import Fidelix.Pkgtools.Commands
import Fidelix.Pkgtools.Copies
import Fidelix.Pkgtools.Hooks
import Fidelix.Files.Trail
import Fidelix.Pkgtools.Database
import Fidelix.Pkgtools.Uninstall
import Fidelix.Pkgtools.Steps
import Fidelix.Pkgtools.Ownership
import Fidelix.Pkgtools.Preserve
import Fidelix.Pkgtools.LastWrite
import Fidelix.Pkgtools.Rules
import Fidelix.Pkgtools.Upgrades
import Fidelix.Services.Script
import Fidelix.Services.Service
import Fidelix.Services.Enabled
import Fidelix.Services.Runs
import Fidelix.Services.Boot
import Fidelix.Services.Apart
import Fidelix.Services.Order
import Fidelix.Services.Menu
import Fidelix.Services.Views
import Fidelix.Services.CommonCore
import Fidelix.Services.Daemon
import Fidelix.Services.Recovery
import Fidelix.Text.Literal
import Fidelix.Boot.Genfstab
import Fidelix.Boot.Mounts
import Fidelix.Boot.Devices
import Fidelix.Pkgtools.Lists
import Fidelix.Pkgtools.Leftovers
import Fidelix.Pkgtools.Dirs
import Fidelix.Pkgtools.Emptied
import Fidelix.Boot.Hardening
import Fidelix.Boot.Listing
import Fidelix.Pkgtools.Decoding
import Fidelix.Pkgtools.Ends
import Fidelix.Files.Beside
import Fidelix.Pkgtools.Insignia
import Fidelix.Pkgtools.Signatures
import Fidelix.Files.Paths
import Fidelix.Pkgtools.Staging
import Fidelix.Pkgtools.Packed
import Fidelix.Pkgtools.Archived
import Fidelix.Pkgtools.Commuting
import Fidelix.Files.Overlay
import Fidelix.Pkgtools.Series
import Fidelix.Pkgtools.Parcel
import Fidelix.Pkgtools.Stocked
import Fidelix.Store.Stock
import Fidelix.Pkgtools.Books
import Fidelix.Pkgtools.Sessions
import Fidelix.Pkgtools.Exchange
import Fidelix.Build.Makefiles
import Fidelix.Build.Installs
import Fidelix.Build.Dependencies
import Fidelix.Build.Circles
import Fidelix.Build.Staged
import Fidelix.Pkgtools.Delivery
import Fidelix.Services.Switches
import Fidelix.Build.Once
